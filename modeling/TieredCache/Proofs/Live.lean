import TieredCache.Proofs.Turns

/-! What the plain cache can still answer: the entries of the shelf and those of the line that have
not expired. A lookup finds one of them. Only a put adds to them, and only under its own key; a put
or a removal leaves nothing else under its key; time only takes away. -/
namespace TieredCache
open Keyed (Apart find without copies)

namespace Plain
variable {K V : Type}

def live (p : Plain K V) (now : Nat) : List (K × V) :=
  p.shelf.entries ++ (p.line.live now).map Admission.entry

variable {p q : Plain K V} {now : Nat}

theorem liveMem {e : K × V} : e ∈ p.live now ↔
    e ∈ p.shelf.entries ∨ ∃ a ∈ p.line.waiting, a.expired p.line.lifetime now = false ∧ a.entry = e := by
  simp [live, Line.live, Line.isLive, and_assoc]

theorem settleLive (filter : Filter K V) {e : K × V} (mem : e ∈ (p.settle filter now).plain.live now) :
    e ∈ p.live now := by
  have whole := p.shelf.fittedEntries
  obtain ⟨_, lifetime, _⟩ := Line.receiveKeeps filter now p.shelf.surplus p.line
  rw [liveMem] at mem ⊢
  rcases mem with shelved | ⟨a, waits, fresh, rfl⟩
  · exact .inl (whole.mem_iff.mp (List.mem_append_left _ shelved))
  · rcases Line.receiveWaits filter now _ _ waits with waited | ⟨d, victim, rfl⟩
    · exact .inr ⟨a, waited, lifetime ▸ fresh, rfl⟩
    · exact .inl (whole.mem_iff.mp (List.mem_append_right _ victim))

theorem expiredLater (a : Admission K V) (lifetime : Option Nat) (time : Nat)
    (late : a.expired lifetime now = true) : a.expired lifetime (now + time) = true := by
  unfold Admission.expired at late ⊢
  cases lifetime with
  | none => exact late
  | some span =>
    simp only [decide_eq_true_eq] at late ⊢
    omega

theorem waitLive (time : Nat) {e : K × V} (mem : e ∈ p.live (now + time)) : e ∈ p.live now := by
  rw [liveMem] at mem ⊢
  rcases mem with shelved | ⟨a, waits, fresh, rfl⟩
  · exact .inl shelved
  · refine .inr ⟨a, waits, ?_, rfl⟩
    cases late : a.expired p.line.lifetime now with
    | false => rfl
    | true =>
      rw [expiredLater a p.line.lifetime time late] at fresh
      exact fresh

theorem liveSub (shelf : ∀ e ∈ q.shelf.entries, e ∈ p.shelf.entries)
    (waiting : ∀ a ∈ q.line.waiting, a ∈ p.line.waiting)
    (lifetime : q.line.lifetime = p.line.lifetime) {e : K × V} (mem : e ∈ q.live now) :
    e ∈ p.live now := by
  rw [liveMem] at mem ⊢
  rcases mem with shelved | ⟨a, waits, fresh, rfl⟩
  · exact .inl (shelf e shelved)
  · exact .inr ⟨a, waiting a waits, lifetime ▸ fresh, rfl⟩

variable [BEq K]

def has (p : Plain K V) (now : Nat) (k : K) (v : V) : Prop :=
  ∃ e ∈ p.live now, (e.1 == k) = true ∧ e.2 = v

theorem has.mono {k : K} {v : V} (held : q.has now k v) (sub : ∀ e ∈ q.live now, e ∈ p.live now) :
    p.has now k v := by
  obtain ⟨e, mem, at_k, value⟩ := held
  exact ⟨e, sub e mem, at_k, value⟩

theorem has.waited {k : K} {v : V} (time : Nat) (held : p.has (now + time) k v) : p.has now k v := by
  obtain ⟨e, mem, at_k, value⟩ := held
  exact ⟨e, waitLive time mem, at_k, value⟩

theorem lookupFind (p : Plain K V) (now : Nat) (k : K) :
    p.lookup now k = (find Prod.fst (p.live now) k).map Prod.snd := by
  have waiting : find Prod.fst ((p.line.live now).map Admission.entry) k =
      (find Admission.key (p.line.live now) k).map Admission.entry := Keyed.findMapped _ _ _ _
  unfold lookup live Line.lookup
  rw [Shelf.findEntries, Keyed.findAppend, waiting, Option.map_or, Option.map_map]
  rfl

theorem lookupHas {k : K} {v : V} (found : p.lookup now k = some v) : p.has now k v := by
  rw [lookupFind] at found
  obtain ⟨e, first, rfl⟩ := Option.map_eq_some_iff.mp found
  obtain ⟨mem, at_k⟩ := Keyed.findMem first
  exact ⟨e, mem, at_k, rfl⟩

theorem lookupNone {k : K} : p.lookup now k = none ↔ ∀ v, ¬p.has now k v := by
  rw [lookupFind, Option.map_eq_none_iff, Keyed.findNone]
  constructor
  · rintro none v ⟨e, mem, at_k, _⟩
    rw [none e mem] at at_k
    exact Bool.false_ne_true at_k
  · intro none e mem
    cases at_k : e.1 == k with
    | false => rfl
    | true => exact absurd ⟨e, mem, at_k, rfl⟩ (none e.2)

theorem withdrawLive (k : K) {e : K × V} (mem : e ∈ (p.withdraw now k).plain.live now) :
    e ∈ p.live now := by
  obtain ⟨shelf, _, line⟩ := p.withdrawKeeps now k
  refine liveSub ?_ ?_ ?_ mem
  · exact fun e shelved => shelf ▸ shelved
  · intro a waits
    rw [line] at waits
    exact (Keyed.withoutMem.mp waits).1
  · rw [line]
    rfl

theorem markLive (k : K) {e : K × V} (mem : e ∈ (p.mark k).live now) : e ∈ p.live now := by
  obtain ⟨shelf, line⟩ := p.markKeeps k
  exact liveSub (fun e shelved => shelf ▸ shelved) (fun a waits => line ▸ waits)
    (congrArg Line.lifetime line) mem

theorem enterHas (k : K) (v : V) {j : K} {w : V} (held : (p.enter k v).has now j w) :
    ((k == j) = true ∧ w = v) ∨ p.has now j w := by
  obtain ⟨e, mem, at_j, rfl⟩ := held
  rcases liveMem.mp mem with shelved | waits
  · rcases List.mem_cons.mp ((p.shelf.enterEntries k v (p.isPinned k)).mem_iff.mp shelved) with rfl | kept
    · exact .inl ⟨at_j, rfl⟩
    · exact .inr ⟨e, liveMem.mpr (.inl kept), at_j, rfl⟩
  · exact .inr ⟨e, liveMem.mpr (.inr waits), at_j, rfl⟩

variable [EquivBEq K]

theorem withdrawAnswer (single : p.Single) (now : Nat) (k : K) :
    (p.withdraw now k).answer = p.line.lookup now k := by
  have kept := Keyed.findFilter single.apart.2 (p.line.isLive now) k
  unfold withdraw Line.lookup Line.live
  rw [kept]
  cases find Admission.key p.line.waiting k with
  | none => rfl
  | some a =>
    cases late : a.expired p.line.lifetime now <;> simp [Option.filter, Line.isLive, late]

theorem Single.liveApart (single : p.Single) (now : Nat) : Apart Prod.fst (p.live now) := by
  refine Keyed.apartCopies.mpr (fun k => ?_)
  have fresh : copies Admission.key (p.line.live now) k ≤ p.line.stock k :=
    List.Sublist.countP_le List.filter_sublist
  have entry : copies Prod.fst ((p.line.live now).map Admission.entry) k =
      copies Admission.key (p.line.live now) k := by
    simp [copies, List.countP_map, Function.comp_def, Admission.entry]
  rw [live, Keyed.copiesAppend, entry]
  exact Nat.le_trans (Nat.add_le_add_left fresh _) (single k)

theorem hasLookup (single : p.Single) {k : K} {v : V} (held : p.has now k v) :
    p.lookup now k = some v := by
  obtain ⟨e, mem, at_k, rfl⟩ := held
  rw [lookupFind, Keyed.findOf (single.liveApart now) mem at_k]
  rfl

theorem has.congr {k j : K} {v : V} (held : p.has now k v) (same : (k == j) = true) : p.has now j v := by
  obtain ⟨e, mem, at_k, value⟩ := held
  exact ⟨e, mem, BEq.trans at_k same, value⟩

theorem withdrawnHas {k j : K} {v : V} (absent : p.shelf.find? k = none)
    (held : (p.withdraw now k).plain.has now j v) : (k == j) = false := by
  obtain ⟨shelf, _, line⟩ := p.withdrawKeeps now k
  obtain ⟨e, mem, at_j, _⟩ := held
  rw [liveMem, shelf, line] at mem
  have other : (e.1 == k) = false := by
    rcases mem with shelved | ⟨a, waits, _, rfl⟩
    · rw [Shelf.findEntries, Option.map_eq_none_iff, Keyed.findNone] at absent
      exact absent e shelved
    · exact (Keyed.withoutMem.mp waits).2
  exact Keyed.unequalOf at_j other

theorem promotedHas (single : p.Single) {k j : K} {v : V} (absent : p.shelf.find? k = none)
    (answer : (p.withdraw now k).answer = some v) (at_j : (k == j) = true) : p.has now j v := by
  have found : p.lookup now k = some v := by
    rw [lookup, absent, Option.none_or, ← withdrawAnswer single now k, answer]
  exact (lookupHas found).congr at_j

theorem touchLive (single : p.Single) (k : K) {e : K × V} (shelf : q.shelf = p.shelf.touch k)
    (line : q.line = p.line) (mem : e ∈ q.live now) : e ∈ p.live now := by
  have perm := Shelf.touchEntries single.recent k
  refine liveSub (fun d shelved => ?_) (fun a waits => line ▸ waits) (congrArg Line.lifetime line) mem
  rw [shelf] at shelved
  exact perm.mem_iff.mp shelved

theorem fetchAnswer (single : p.Single) (filter : Filter K V) (now : Nat) (k : K) :
    (p.fetch filter now k).answer = p.lookup now k := by
  have withdrawn := withdrawAnswer single now k
  unfold fetch lookup
  cases p.shelf.find? k with
  | some v => rfl
  | none =>
    dsimp only
    rw [Option.none_or, ← withdrawn]
    cases (p.withdraw now k).answer <;> simp

theorem storeAnswer (single : p.Single) (filter : Filter K V) (now : Nat) (k : K) (v : V) :
    (p.store filter now k v).answer = p.lookup now k := by
  have withdrawn := withdrawAnswer single now k
  unfold store lookup
  cases p.shelf.find? k with
  | some old => rfl
  | none => exact withdrawn

theorem discardAnswer (single : p.Single) (now : Nat) (k : K) :
    (p.discard now k).answer = p.lookup now k :=
  congrArg ((p.shelf.find? k).or ·) (withdrawAnswer (single.remove k _) now k)

theorem holdAnswer (single : p.Single) (now : Nat) (k : K) :
    (p.hold now k).answer = (p.lookup now k).isSome := by
  have withdrawn := withdrawAnswer single now k
  unfold hold lookup
  cases p.shelf.find? k with
  | some v => rfl
  | none =>
    dsimp only
    rw [Option.none_or, ← withdrawn]
    cases (p.withdraw now k).answer <;> rfl

theorem fetchHas (single : p.Single) (filter : Filter K V) (k : K) {j : K} {w : V}
    (held : (p.fetch filter now k).plain.has now j w) : p.has now j w := by
  unfold fetch at held
  cases found : p.shelf.find? k with
  | some v =>
    rw [found] at held
    exact held.mono (fun _ => touchLive single k rfl rfl)
  | none =>
    rw [found] at held
    dsimp only at held
    cases answer : (p.withdraw now k).answer with
    | none =>
      rw [answer] at held
      exact held.mono (fun _ => withdrawLive k)
    | some v =>
      rw [answer] at held
      rcases enterHas k v (held.mono (fun _ => settleLive filter)) with ⟨at_j, rfl⟩ | kept
      · exact promotedHas single found answer at_j
      · exact kept.mono (fun _ => withdrawLive k)

theorem storeHas (single : p.Single) (filter : Filter K V) (k : K) (v : V) {j : K} {w : V}
    (held : (p.store filter now k v).plain.has now j w) :
    ((k == j) = true ∧ w = v) ∨ ((k == j) = false ∧ p.has now j w) := by
  unfold store at held
  cases found : p.shelf.find? k with
  | some old =>
    rw [found] at held
    have replaced : Single { p with shelf := p.shelf.replace k v } := by
      intro i
      show (p.shelf.replace k v).stock i + p.line.stock i ≤ 1
      rw [p.shelf.stockReplace]
      exact single i
    have waits := single.either (show (p.shelf.find? k).isSome by rw [found]; rfl)
    obtain ⟨e, mem, at_j, rfl⟩ := held.mono (fun _ => touchLive replaced k rfl rfl)
    rcases liveMem.mp mem with shelved | ⟨a, waiting, fresh, rfl⟩
    · change e ∈ (p.shelf.replace k v).entries at shelved
      rw [Shelf.replaceEntries] at shelved
      obtain ⟨d, before, rfl⟩ := List.mem_map.mp shelved
      cases at_k : d.1 == k with
      | true =>
        simp only [at_k, if_true] at at_j ⊢
        exact .inl ⟨BEq.trans (BEq.symm at_k) at_j, trivial⟩
      | false =>
        simp only [at_k, Bool.false_eq_true, if_false] at at_j ⊢
        exact .inr ⟨Keyed.unequalOf at_j at_k, d, liveMem.mpr (.inl before), at_j, rfl⟩
    · have other : (a.key == k) = false := Keyed.findNone.mp waits a waiting
      refine .inr ⟨Keyed.unequalOf at_j other, a.entry, ?_, at_j, rfl⟩
      exact liveMem.mpr (.inr ⟨a, waiting, fresh, rfl⟩)
  | none =>
    rw [found] at held
    rcases enterHas k v (held.mono (fun _ => settleLive filter)) with at_j | kept
    · exact .inl at_j
    · exact .inr ⟨withdrawnHas found kept, kept.mono (fun _ => withdrawLive k)⟩

theorem discardHas (k : K) {j : K} {w : V} (held : (p.discard now k).plain.has now j w) :
    (k == j) = false ∧ p.has now j w := by
  let dropped : Plain K V := { p with shelf := p.shelf.remove k, pins := without id p.pins k }
  have entries : ∀ e ∈ dropped.shelf.entries, e ∈ p.shelf.entries ∧ (e.1 == k) = false := by
    intro e mem
    change e ∈ (p.shelf.remove k).entries at mem
    rw [Shelf.removeEntries] at mem
    exact Keyed.withoutMem.mp mem
  have absent : dropped.shelf.find? k = none := by
    rw [Shelf.findEntries, Option.map_eq_none_iff, Keyed.findNone]
    exact fun e mem => (entries e mem).2
  refine ⟨withdrawnHas (p := dropped) absent held, ?_⟩
  refine (has.mono (p := dropped) held (fun _ => withdrawLive k)).mono (fun _ => ?_)
  exact liveSub (fun e mem => (entries e mem).1) (fun _ waits => waits) rfl

theorem holdHas (single : p.Single) (k : K) {j : K} {w : V}
    (held : (p.hold now k).plain.has now j w) : p.has now j w := by
  unfold hold at held
  cases found : p.shelf.find? k with
  | some v =>
    rw [found] at held
    have perm := Shelf.pinEntries single.recent k
    refine (held.mono (fun _ => markLive k)).mono (fun _ => ?_)
    exact liveSub (p := p) (q := { p with shelf := p.shelf.pin k }) (fun e => perm.mem_iff.mp)
      (fun _ waits => waits) rfl
  | none =>
    rw [found] at held
    dsimp only at held
    cases answer : (p.withdraw now k).answer with
    | none =>
      rw [answer] at held
      exact (held.mono (fun _ => markLive k)).mono (fun _ => withdrawLive k)
    | some v =>
      rw [answer] at held
      dsimp only at held
      rw [Plain.enterMarked] at held
      rcases enterHas k v held with ⟨at_j, rfl⟩ | kept
      · exact promotedHas single found answer at_j
      · exact (kept.mono (fun _ => markLive k)).mono (fun _ => withdrawLive k)

theorem releaseHas (single : p.Single) (filter : Filter K V) (k : K) {j : K} {w : V}
    (held : (p.release filter now k).plain.has now j w) : p.has now j w := by
  let freed : Plain K V := { p with shelf := p.shelf.unpin k, pins := without id p.pins k }
  have perm := Shelf.unpinEntries single.pinned k
  have sub : ∀ e ∈ freed.live now, e ∈ p.live now := fun _ =>
    liveSub (p := p) (q := freed) (fun e => perm.mem_iff.mp) (fun _ waits => waits) rfl
  unfold release at held
  cases found : p.shelf.find? k with
  | some v =>
    rw [found] at held
    exact (has.mono (p := freed) held (fun _ => settleLive filter)).mono sub
  | none =>
    rw [found] at held
    exact has.mono held sub

omit [EquivBEq K] in
theorem setCacheSizeHas (filter : Filter K V) (n : Option Nat) {j : K} {w : V}
    (held : (p.setCacheSize filter now n).plain.has now j w) : p.has now j w :=
  held.mono (fun _ mem => settleLive (p := { p with shelf := { p.shelf with capacity := n } }) filter mem)

omit [EquivBEq K] in
theorem setSoftSizeHas (n : Option Nat) {j : K} {w : V}
    (held : (p.setSoftSize n).plain.has now j w) : p.has now j w :=
  held.mono (fun _ => liveSub (p := p) (q := (p.setSoftSize n).plain) (fun _ shelved => shelved)
    (fun _ => List.mem_of_mem_drop) rfl)

omit [EquivBEq K] in
theorem purgeHas {j : K} {w : V} (held : (p.purge now).plain.has now j w) : p.has now j w :=
  held.mono (fun _ => liveSub (p := p) (q := (p.purge now).plain) (fun _ shelved => shelved)
    (fun _ waits => (List.mem_filter.mp waits).1) rfl)

end Plain
end TieredCache
