import TieredCache.Proofs.Stock

/-! What every state of the plain cache satisfies: no key has two entries, the pinned entries of the
shelf are those whose key is pinned, no pinned key waits in the line, the line is within its bound,
and every key has identity. Each primitive of an operation preserves this, and so does each
operation. -/
namespace TieredCache
open Keyed (Apart find without copies)

namespace Plain
variable {K V : Type} [BEq K] [Identity K]

structure Sound (p : Plain K V) : Prop where
  single : p.Single
  free : ∀ e ∈ p.shelf.recent, p.isPinned e.1 = false
  fixed : ∀ e ∈ p.shelf.pinned, p.isPinned e.1 = true
  passing : ∀ a ∈ p.line.waiting, p.isPinned a.key = false
  within : p.line.Within
  shelved : ∀ e ∈ p.shelf.entries, Identity.valid e.1 = true
  queued : ∀ a ∈ p.line.waiting, Identity.valid a.key = true
  named : ∀ k ∈ p.pins, Identity.valid k = true

variable {p q : Plain K V}

theorem soundStart (config : Config) : (start config : Plain K V).Sound where
  single := fun _ => Nat.zero_le 1
  free := by simp [start]
  fixed := by simp [start]
  passing := by simp [start]
  within := fun _ _ => Nat.zero_le _
  shelved := by simp [start, Shelf.entries]
  queued := by simp [start]
  named := by simp [start]

theorem soundClear (p : Plain K V) : p.clear.Sound where
  single := fun _ => Nat.zero_le 1
  free := by simp [Plain.clear]
  fixed := by simp [Plain.clear]
  passing := by simp [Plain.clear]
  within := fun _ _ => Nat.zero_le _
  shelved := by simp [Plain.clear, Shelf.entries]
  queued := by simp [Plain.clear]
  named := by simp [Plain.clear]

structure Fewer (p q : Plain K V) : Prop where
  stock : ∀ k, q.stock k ≤ p.stock k
  pins : q.pins = p.pins
  recent : ∀ e ∈ q.shelf.recent, e.1 ∈ p.shelf.recent.map Prod.fst
  pinned : ∀ e ∈ q.shelf.pinned, e.1 ∈ p.shelf.pinned.map Prod.fst
  waiting : ∀ a ∈ q.line.waiting, a.key ∈ p.line.waiting.map Admission.key ++ p.shelf.recent.map Prod.fst
  within : p.line.Within → q.line.Within

theorem Sound.fewer (sound : p.Sound) (fewer : p.Fewer q) : q.Sound := by
  have same : ∀ k, q.isPinned k = p.isPinned k := fun k => by rw [isPinned, isPinned, fewer.pins]
  refine ⟨fun k => Nat.le_trans (fewer.stock k) (sound.single k), ?_, ?_, ?_, fewer.within sound.within,
    ?_, ?_, ?_⟩
  · intro e mem
    obtain ⟨d, held, key⟩ := List.mem_map.mp (fewer.recent e mem)
    rw [same, ← key]
    exact sound.free d held
  · intro e mem
    obtain ⟨d, held, key⟩ := List.mem_map.mp (fewer.pinned e mem)
    rw [same, ← key]
    exact sound.fixed d held
  · intro a mem
    rw [same]
    rcases List.mem_append.mp (fewer.waiting a mem) with held | held
    · obtain ⟨b, held, key⟩ := List.mem_map.mp held
      exact key ▸ sound.passing b held
    · obtain ⟨d, held, key⟩ := List.mem_map.mp held
      exact key ▸ sound.free d held
  · intro e mem
    rcases Shelf.entriesMem.mp mem with mem | mem
    · obtain ⟨d, held, key⟩ := List.mem_map.mp (fewer.recent e mem)
      exact key ▸ sound.shelved d (Shelf.entriesMem.mpr (.inl held))
    · obtain ⟨d, held, key⟩ := List.mem_map.mp (fewer.pinned e mem)
      exact key ▸ sound.shelved d (Shelf.entriesMem.mpr (.inr held))
  · intro a mem
    rcases List.mem_append.mp (fewer.waiting a mem) with held | held
    · obtain ⟨b, held, key⟩ := List.mem_map.mp held
      exact key ▸ sound.queued b held
    · obtain ⟨d, held, key⟩ := List.mem_map.mp held
      exact key ▸ sound.shelved d (Shelf.entriesMem.mpr (.inl held))
  · rw [fewer.pins]
    exact sound.named

theorem Sound.count (sound : p.Sound) (what : Tally) (times : Nat) : (p.count what times).Sound :=
  ⟨sound.single, sound.free, sound.fixed, sound.passing, sound.within, sound.shelved, sound.queued,
    sound.named⟩

theorem Sound.withLine (sound : p.Sound) {line : Line K V}
    (stock : ∀ k, line.stock k ≤ p.line.stock k) (kept : ∀ a ∈ line.waiting, a ∈ p.line.waiting)
    (within : line.Within) : Sound { p with line := line } :=
  sound.fewer {
    stock := fun k => Nat.add_le_add_left (stock k) _
    pins := rfl
    recent := fun _ mem => List.mem_map_of_mem mem
    pinned := fun _ mem => List.mem_map_of_mem mem
    waiting := fun a mem => List.mem_append_left _ (List.mem_map_of_mem (kept a mem))
    within := fun _ => within }

theorem Sound.withCapacity (sound : p.Sound) (n : Option Nat) :
    Sound { p with shelf := { p.shelf with capacity := n } } :=
  ⟨sound.single, sound.free, sound.fixed, sound.passing, sound.within, sound.shelved, sound.queued,
    sound.named⟩

theorem Sound.settle (sound : p.Sound) (filter : Filter K V) (now : Nat) :
    (p.settle filter now).plain.Sound := by
  obtain ⟨pinned, recent⟩ := p.shelf.fittedMem
  obtain ⟨_, _, within⟩ := Line.receiveKeeps filter now p.shelf.surplus p.line
  refine sound.fewer ⟨fun k => ?_, rfl, ?_, ?_, ?_, within⟩
  · exact Nat.le_of_add_right_le (Nat.le_of_eq (stockSettle filter now p k))
  · exact fun e mem => List.mem_map_of_mem (recent e mem)
  · exact fun _ mem => List.mem_map_of_mem (pinned ▸ mem)
  · intro a mem
    rcases Line.receiveWaits filter now _ _ mem with waited | ⟨e, victim, rfl⟩
    · exact List.mem_append_left _ (List.mem_map_of_mem waited)
    · exact List.mem_append_right _ (List.mem_map_of_mem (p.shelf.surplusMem victim))

variable [EquivBEq K]

theorem Sound.withdraw (sound : p.Sound) (now : Nat) (k : K) : (p.withdraw now k).plain.Sound := by
  obtain ⟨shelf, pins, line⟩ := p.withdrawKeeps now k
  refine sound.fewer ⟨fun j => ?_, pins, ?_, ?_, ?_, ?_⟩
  · have taken := stockWithdraw sound.single now k j
    omega
  · rw [shelf]
    exact fun _ mem => List.mem_map_of_mem mem
  · rw [shelf]
    exact fun _ mem => List.mem_map_of_mem mem
  · rw [line]
    exact fun _ mem => List.mem_append_left _ (List.mem_map_of_mem (Keyed.withoutMem.mp mem).1)
  · rw [line]
    exact fun within most bound => Nat.le_trans (List.length_filter_le _ _) (within most bound)

theorem Sound.touch (sound : p.Sound) (k : K) : Sound { p with shelf := p.shelf.touch k } := by
  have perm : (p.shelf.touch k).recent.Perm p.shelf.recent := by
    unfold Shelf.touch
    split
    · exact Keyed.foundFirst sound.single.recent k
    · exact List.Perm.refl _
  have pinned : (p.shelf.touch k).pinned = p.shelf.pinned := by
    unfold Shelf.touch
    split <;> rfl
  refine sound.fewer ⟨fun j => ?_, rfl, ?_, ?_, ?_, id⟩
  · exact Nat.le_of_eq (congrArg (· + _) (Keyed.copiesPerm Prod.fst (Shelf.touchEntries sound.single.recent k) j))
  · exact fun _ mem => List.mem_map_of_mem (perm.mem_iff.mp mem)
  · exact fun _ mem => List.mem_map_of_mem (pinned ▸ mem)
  · exact fun _ mem => List.mem_append_left _ (List.mem_map_of_mem mem)

omit [EquivBEq K] in
theorem Sound.replace (sound : p.Sound) (k : K) (v : V) :
    Sound { p with shelf := p.shelf.replace k v } := by
  refine sound.fewer ⟨fun j => ?_, rfl, ?_, ?_, ?_, id⟩
  · exact Nat.le_of_eq (congrArg (· + _) (p.shelf.stockReplace k v j))
  · intro e mem
    rw [← Shelf.keysRevalued k v]
    exact List.mem_map_of_mem mem
  · intro e mem
    rw [← Shelf.keysRevalued k v]
    exact List.mem_map_of_mem mem
  · exact fun _ mem => List.mem_append_left _ (List.mem_map_of_mem mem)

theorem Sound.enter (sound : p.Sound) {k : K} (valid : Identity.valid k = true) (absent : p.stock k = 0)
    (v : V) : (p.enter k v).Sound := by
  have single : (p.enter k v).Single := by
    intro j
    rw [stockEnter]
    cases same : k == j with
    | false => exact sound.single j
    | true => exact Nat.le_of_eq (by rw [← p.stockCongr same, absent]; rfl)
  cases fixed : p.isPinned k with
  | true =>
    have entered : p.enter k v = { p with shelf := { p.shelf with pinned := (k, v) :: p.shelf.pinned } } := by
      unfold Plain.enter Shelf.enter
      rw [fixed, if_pos rfl]
    rw [entered] at single ⊢
    refine ⟨single, sound.free, ?_, sound.passing, sound.within, ?_, sound.queued, sound.named⟩
    · intro e mem
      rcases List.mem_cons.mp mem with rfl | mem
      · exact fixed
      · exact sound.fixed e mem
    · intro e mem
      rcases List.mem_cons.mp (List.perm_middle.mem_iff.mp mem) with rfl | mem
      · exact valid
      · exact sound.shelved e mem
  | false =>
    have entered : p.enter k v = { p with shelf := { p.shelf with recent := (k, v) :: p.shelf.recent } } := by
      unfold Plain.enter Shelf.enter
      rw [fixed]
      rfl
    rw [entered] at single ⊢
    refine ⟨single, ?_, sound.fixed, sound.passing, sound.within, ?_, sound.queued, sound.named⟩
    · intro e mem
      rcases List.mem_cons.mp mem with rfl | mem
      · exact fixed
      · exact sound.free e mem
    · intro e mem
      rcases List.mem_cons.mp mem with rfl | mem
      · exact valid
      · exact sound.shelved e mem

omit [EquivBEq K] in
theorem markNamed {k : K} (named : ∀ j ∈ p.pins, Identity.valid j = true)
    (valid : Identity.valid k = true) : ∀ j ∈ (p.mark k).pins, Identity.valid j = true := by
  intro j mem
  unfold Plain.mark at mem
  split at mem
  · exact named j mem
  · rcases List.mem_append.mp mem with mem | mem
    · exact named j mem
    · exact List.mem_singleton.mp mem ▸ valid

theorem Sound.mark (sound : p.Sound) {k : K} (valid : Identity.valid k = true) (absent : p.stock k = 0) :
    (p.mark k).Sound := by
  have stock := p.stockMark k
  have marked := p.markPinned k
  obtain ⟨no_recent, no_waiting⟩ := p.stockNone.mp absent
  obtain ⟨shelf, line⟩ := p.markKeeps k
  refine ⟨fun j => stock j ▸ sound.single j, ?_, ?_, ?_, line ▸ sound.within, shelf ▸ sound.shelved,
    line ▸ sound.queued, markNamed sound.named valid⟩
  · intro e mem
    rw [shelf] at mem
    rw [marked, sound.free e mem, Keyed.unequalSymm (no_recent e (Shelf.entriesMem.mpr (.inl mem)))]
    rfl
  · intro e mem
    rw [shelf] at mem
    rw [marked, sound.fixed e mem]
    rfl
  · intro a mem
    rw [line] at mem
    rw [marked, sound.passing a mem, Keyed.unequalSymm (no_waiting a mem)]
    rfl

theorem Sound.pin (sound : p.Sound) {k : K} (valid : Identity.valid k = true)
    (found : (p.shelf.find? k).isSome) : Sound (Plain.mark { p with shelf := p.shelf.pin k } k) := by
  let lifted : Plain K V := { p with shelf := p.shelf.pin k }
  obtain ⟨shelf, line⟩ := lifted.markKeeps k
  have marked : ∀ j, (lifted.mark k).isPinned j = (p.isPinned j || k == j) := lifted.markPinned k
  have absent := Keyed.findNone.mp (sound.single.either found)
  show (lifted.mark k).Sound
  refine ⟨fun j => ?_, ?_, ?_, ?_, line ▸ sound.within, ?_, line ▸ sound.queued,
    markNamed (p := lifted) sound.named valid⟩
  · rw [lifted.stockMark]
    show (p.shelf.pin k).stock j + p.line.stock j ≤ 1
    rw [Shelf.stock, Keyed.copiesPerm Prod.fst (Shelf.pinEntries sound.single.recent k)]
    exact sound.single j
  · intro e mem
    rw [shelf] at mem
    obtain ⟨held, other⟩ := Keyed.withoutMem.mp mem
    rw [marked, sound.free e held, Keyed.unequalSymm other]
    rfl
  · intro e mem
    rw [shelf] at mem
    rw [marked]
    rcases List.mem_append.mp mem with moved | held
    · have at_k := (Keyed.findMem (Option.mem_toList.mp moved)).2
      rw [BEq.symm at_k, Bool.or_true]
    · rw [sound.fixed e held]
      rfl
  · intro a mem
    rw [line] at mem
    rw [marked, sound.passing a mem, Keyed.unequalSymm (absent a mem)]
    rfl
  · intro e mem
    rw [shelf] at mem
    exact sound.shelved e ((Shelf.pinEntries sound.single.recent k).mem_iff.mp mem)

/- A key leaves the pins, and the pinned entries with them. -/
theorem Sound.unmark (sound : p.Sound) (k : K) {shelf : Shelf K V}
    (stock : ∀ j, shelf.stock j ≤ p.shelf.stock j)
    (recent : ∀ e ∈ shelf.recent, (e.1 == k) = true ∨ e ∈ p.shelf.recent)
    (pinned : shelf.pinned = without Prod.fst p.shelf.pinned k)
    (entries : ∀ e ∈ shelf.entries, e ∈ p.shelf.entries) :
    Sound { p with shelf := shelf, pins := without id p.pins k } := by
  have kept := p.unmarked k
  refine ⟨fun j => ?_, ?_, ?_, ?_, sound.within, ?_, sound.queued, ?_⟩
  · exact Nat.le_trans (Nat.add_le_add_right (stock j) _) (sound.single j)
  · intro e mem
    refine (kept e.1).trans ?_
    rcases recent e mem with at_k | held
    · rw [BEq.symm at_k]
      exact Bool.and_false _
    · rw [sound.free e held]
      rfl
  · intro e mem
    obtain ⟨held, other⟩ := Keyed.withoutMem.mp (pinned ▸ mem)
    refine (kept e.1).trans ?_
    rw [sound.fixed e held, Keyed.unequalSymm other]
    rfl
  · intro a mem
    refine (kept a.key).trans ?_
    rw [sound.passing a mem]
    rfl
  · exact fun e mem => sound.shelved e (entries e mem)
  · exact fun j mem => sound.named j (Keyed.withoutMem.mp mem).1

theorem Sound.unpin (sound : p.Sound) (k : K) :
    Sound { p with shelf := p.shelf.unpin k, pins := without id p.pins k } := by
  have perm := Shelf.unpinEntries sound.single.pinned k
  refine sound.unmark k (fun j => ?_) (fun e mem => ?_) rfl (fun e => perm.mem_iff.mp)
  · exact Nat.le_of_eq (Keyed.copiesPerm Prod.fst perm j)
  · rcases List.mem_append.mp mem with moved | held
    · exact .inl (Keyed.findMem (Option.mem_toList.mp moved)).2
    · exact .inr held

theorem Sound.drop (sound : p.Sound) (k : K) :
    Sound { p with shelf := p.shelf.remove k, pins := without id p.pins k } := by
  refine sound.unmark k (fun j => ?_) (fun e mem => ?_) rfl (fun e mem => ?_)
  · exact Nat.le_of_add_right_le (Nat.le_of_eq (p.shelf.stockRemove sound.single.apart.1 k j))
  · exact .inr (Keyed.withoutMem.mp mem).1
  · rw [Shelf.removeEntries] at mem
    exact (Keyed.withoutMem.mp mem).1

end Plain
end TieredCache
