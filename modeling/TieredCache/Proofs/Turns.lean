import TieredCache.Proofs.Sound

/-! What each operation of the plain cache keeps and what it accounts for. The entries of a key
after an operation, the reports heard meanwhile and those handed out add up to the entries before
it and those made. -/
namespace TieredCache
open Keyed (Apart find without copies)

namespace Plain
variable {K V A : Type}

def Fits (p : Plain K V) : Prop := ∀ most, p.shelf.capacity = some most → p.shelf.recent.length ≤ most

theorem settleFits (filter : Filter K V) (now : Nat) (p : Plain K V) :
    (p.settle filter now).plain.Fits := by
  intro most capped
  have bound : p.shelf.capacity = some most := by
    have kept : p.shelf.fitted.capacity = p.shelf.capacity := by
      unfold Shelf.fitted
      split <;> rfl
    exact kept.symm.trans capped
  show p.shelf.fitted.recent.length ≤ most
  unfold Shelf.fitted
  rw [bound]
  exact List.length_take_le _ _

theorem fitsSmaller {p q : Plain K V} (capacity : q.shelf.capacity = p.shelf.capacity)
    (length : q.shelf.recent.length ≤ p.shelf.recent.length) (fits : p.Fits) : q.Fits :=
  fun most capped => Nat.le_trans length (fits most (capacity.symm.trans capped))

theorem fitsShelf {p q : Plain K V} (same : q.shelf = p.shelf) (fits : p.Fits) : q.Fits := by
  unfold Fits
  rw [same]
  exact fits

variable [BEq K]

def once (happened : Bool) (k j : K) : Nat := if happened && k == j then 1 else 0

theorem absentStock {p : Plain K V} {k : K} (absent : p.shelf.find? k = none) : p.shelf.stock k = 0 := by
  have found := p.shelf.foundStock k
  rw [absent] at found
  simpa using found

theorem touchShape [EquivBEq K] (s : Shelf K V) (apart : Apart Prod.fst s.recent) (k : K) :
    (s.touch k).capacity = s.capacity ∧ (s.touch k).recent.length = s.recent.length := by
  unfold Shelf.touch
  split
  · exact ⟨rfl, (Keyed.foundFirst apart k).length_eq⟩
  · exact ⟨rfl, rfl⟩

variable [Identity K]

structure Lawful (p : Plain K V) (turn : Turn K V A) (made gone : K → Nat) : Prop where
  sound : turn.plain.Sound
  fits : p.Fits → turn.plain.Fits
  balance : ∀ j, turn.plain.stock j + heard j turn.events + gone j = p.stock j + made j

variable [EquivBEq K] {p : Plain K V}

theorem fetchLawful (sound : p.Sound) (filter : Filter K V) (now : Nat) {k : K}
    (valid : Identity.valid k = true) :
    p.Lawful (p.fetch filter now k) (fun _ => 0) (fun _ => 0) := by
  have withdrawn := sound.withdraw now k
  have taken := stockWithdraw sound.single now k
  have left := p.withdrawStock now k
  obtain ⟨shelf, _, _⟩ := p.withdrawKeeps now k
  unfold fetch
  cases found : p.shelf.find? k with
  | some v =>
    obtain ⟨capacity, length⟩ := touchShape p.shelf sound.single.recent k
    refine ⟨(sound.touch k).count .hit 1, fitsSmaller capacity (Nat.le_of_eq length), fun j => ?_⟩
    show (p.shelf.touch k).stock j + p.line.stock j = p.stock j
    rw [Shelf.stock, Keyed.copiesPerm Prod.fst (Shelf.touchEntries sound.single.recent k)]
    rfl
  | none =>
    dsimp only
    rw [absentStock found] at left
    cases answer : (p.withdraw now k).answer with
    | none =>
      refine ⟨withdrawn.count .miss 1, fun fits => fitsShelf shelf fits, fun j => ?_⟩
      have balance := taken j
      rw [answer] at balance
      exact balance
    | some v =>
      have counted := (withdrawn.count .hit 1).count .promotion 1
      refine ⟨(counted.enter valid left v).settle filter now, fun _ => settleFits filter now _,
        fun j => ?_⟩
      have entered := stockEnter (((p.withdraw now k).plain.count .hit 1).count .promotion 1) k v j
      have settled := stockSettle filter now
        ((((p.withdraw now k).plain.count .hit 1).count .promotion 1).enter k v) j
      have before := taken j
      rw [answer] at before
      change _ = (p.withdraw now k).plain.stock j + _ at entered
      change _ + (if k == j then 1 else 0) = _ at before
      dsimp only
      rw [heardAppend]
      omega

theorem storeLawful (sound : p.Sound) (filter : Filter K V) (now : Nat) {k : K}
    (valid : Identity.valid k = true) (v : V) :
    p.Lawful (p.store filter now k v) (once (p.store filter now k v).answer.isNone k) (fun _ => 0) := by
  have withdrawn := sound.withdraw now k
  have taken := stockWithdraw sound.single now k
  have left := p.withdrawStock now k
  unfold store
  cases found : p.shelf.find? k with
  | some old =>
    have replaced := sound.replace k v
    obtain ⟨capacity, length⟩ := touchShape (p.shelf.replace k v) replaced.single.recent k
    have same : (p.shelf.replace k v).recent.length = p.shelf.recent.length := List.length_map _
    refine ⟨replaced.touch k, fitsSmaller capacity (Nat.le_of_eq (length.trans same)), fun j => ?_⟩
    show ((p.shelf.replace k v).touch k).stock j + p.line.stock j = p.stock j
    rw [Shelf.stock, Keyed.copiesPerm Prod.fst (Shelf.touchEntries replaced.single.recent k), ← Shelf.stock,
      p.shelf.stockReplace]
    rfl
  | none =>
    dsimp only
    rw [absentStock found] at left
    refine ⟨((withdrawn.enter valid left v).count .insert 1).settle filter now,
      fun _ => settleFits filter now _, fun j => ?_⟩
    have entered := stockEnter (p.withdraw now k).plain k v j
    have settled := stockSettle filter now (((p.withdraw now k).plain.enter k v).count .insert 1) j
    have before := taken j
    change _ = ((p.withdraw now k).plain.enter k v).stock j at settled
    have split : once (p.withdraw now k).answer.isNone k j +
        (if (p.withdraw now k).answer.isSome && k == j then 1 else 0) = if k == j then 1 else 0 := by
      unfold once
      cases (p.withdraw now k).answer <;> simp
    dsimp only
    rw [heardAppend]
    omega

theorem discardLawful (sound : p.Sound) (now : Nat) (k : K) :
    p.Lawful (p.discard now k) (fun _ => 0) (once (p.discard now k).answer.isSome k) := by
  have dropped := sound.drop k
  have taken := stockWithdraw dropped.single now k
  have removed := p.shelf.stockRemove sound.single.apart.1 k
  obtain ⟨shelf, _, _⟩ := withdrawKeeps { p with shelf := p.shelf.remove k, pins := without id p.pins k } now k
  unfold discard
  refine ⟨dropped.withdraw now k, ?_, fun j => ?_⟩
  · have fewer : Fits p → Fits { p with shelf := p.shelf.remove k, pins := without id p.pins k } :=
      fitsSmaller rfl (List.length_filter_le _ _)
    exact fun fits => fitsShelf shelf (fewer fits)
  · have before := taken j
    have shelved := removed j
    change _ = (p.shelf.remove k).stock j + p.line.stock j at before
    dsimp only
    cases found : p.shelf.find? k with
    | none =>
      rw [found] at shelved
      change (p.shelf.remove k).stock j + 0 = _ at shelved
      change _ + _ + once (withdraw now _ k).answer.isSome k j = p.shelf.stock j + p.line.stock j + 0
      unfold once
      omega
    | some v =>
      -- A key on the shelf does not wait as well, so there is one entry to hand out.
      have waits : find Admission.key p.line.waiting k = none := sound.single.either (by rw [found]; rfl)
      have nothing : (withdraw now { p with shelf := p.shelf.remove k, pins := without id p.pins k } k).answer
          = none := by
        unfold withdraw
        dsimp only
        rw [waits]
      rw [found] at shelved
      rw [nothing] at before
      change (p.shelf.remove k).stock j + (if k == j then 1 else 0) = _ at shelved
      change _ + _ + 0 = _ at before
      change _ + _ + (if k == j then 1 else 0) = p.shelf.stock j + p.line.stock j + 0
      omega

theorem holdLawful (sound : p.Sound) (now : Nat) {k : K} (valid : Identity.valid k = true) :
    p.Lawful (p.hold now k) (fun _ => 0) (fun _ => 0) := by
  have withdrawn := sound.withdraw now k
  have taken := stockWithdraw sound.single now k
  have left := p.withdrawStock now k
  obtain ⟨shelf, _, _⟩ := p.withdrawKeeps now k
  unfold hold
  cases found : p.shelf.find? k with
  | some v =>
    let lifted : Plain K V := { p with shelf := p.shelf.pin k }
    obtain ⟨marked, _⟩ := lifted.markKeeps k
    refine ⟨sound.pin valid (by rw [found]; rfl), ?_, fun j => ?_⟩
    · have fewer : p.Fits → lifted.Fits := fitsSmaller rfl (List.length_filter_le _ _)
      exact fun fits => fitsShelf marked (fewer fits)
    · show (lifted.mark k).stock j = p.stock j
      rw [lifted.stockMark]
      exact congrArg (· + p.line.stock j) (Keyed.copiesPerm Prod.fst (Shelf.pinEntries sound.single.recent k) j)
  | none =>
    dsimp only
    rw [absentStock found] at left
    cases answer : (p.withdraw now k).answer with
    | none =>
      obtain ⟨marked, _⟩ := (p.withdraw now k).plain.markKeeps k
      refine ⟨withdrawn.mark valid left, fun fits => fitsShelf (marked.trans shelf) fits, fun j => ?_⟩
      have balance := taken j
      rw [answer] at balance
      dsimp only
      rw [stockMark]
      exact balance
    | some v =>
      let promoted := (p.withdraw now k).plain.count .promotion 1
      obtain ⟨marked, _⟩ := promoted.markKeeps k
      have absent : (promoted.mark k).stock k = 0 := (promoted.stockMark k k).trans left
      have entered := ((withdrawn.count .promotion 1).mark valid left).enter valid absent v
      have fits : p.Fits → ((promoted.mark k).enter k v).Fits := by
        intro fits
        have before : promoted.Fits := fitsShelf shelf fits
        rw [← promoted.enterMarked]
        exact fitsShelf (Plain.markKeeps _ k).1 (fitsSmaller rfl (Nat.le_refl _) before)
      dsimp only
      rw [promoted.enterMarked]
      refine ⟨entered, fits, fun j => ?_⟩
      have balance := taken j
      rw [answer] at balance
      dsimp only
      rw [stockEnter, stockMark]
      change _ + _ + (if k == j then 1 else 0) = _ at balance
      change (p.withdraw now k).plain.stock j + _ + _ + 0 = _ + 0
      omega

theorem releaseLawful (sound : p.Sound) (filter : Filter K V) (now : Nat) (k : K) :
    p.Lawful (p.release filter now k) (fun _ => 0) (fun _ => 0) := by
  have freed := sound.unpin k
  have kept := Keyed.copiesPerm Prod.fst (Shelf.unpinEntries sound.single.pinned k)
  unfold release
  cases found : p.shelf.find? k with
  | some v =>
    dsimp only
    refine ⟨freed.settle filter now, fun _ => settleFits filter now _, fun j => ?_⟩
    have settled := stockSettle filter now { p with shelf := p.shelf.unpin k, pins := without id p.pins k } j
    exact settled.trans (congrArg (· + p.line.stock j) (kept j))
  | none =>
    dsimp only
    refine ⟨freed, ?_, fun j => congrArg (· + p.line.stock j) (kept j)⟩
    rw [p.shelf.unpinAbsent found]
    exact fun fits => fits

omit [EquivBEq K] in
theorem setCacheSizeLawful (sound : p.Sound) (filter : Filter K V) (now : Nat) (n : Option Nat) :
    p.Lawful (p.setCacheSize filter now n) (fun _ => 0) (fun _ => 0) :=
  ⟨(sound.withCapacity n).settle filter now, fun _ => settleFits filter now _,
    fun j => stockSettle filter now { p with shelf := { p.shelf with capacity := n } } j⟩

omit [EquivBEq K] in
theorem loseLawful (sound : p.Sound) {gone : List K} {line : Line K V}
    (stock : ∀ k, line.stock k + copies id gone k = p.line.stock k)
    (kept : ∀ a ∈ line.waiting, a ∈ p.line.waiting) (within : line.Within) :
    p.Lawful (Plain.lose { p with line := line } gone) (fun _ => 0) (fun _ => 0) := by
  have fewer := sound.withLine (fun k => Nat.le_of_add_right_le (Nat.le_of_eq (stock k))) kept within
  refine ⟨fewer.count .reclaim gone.length, id, fun j => ?_⟩
  have same := stock j
  rw [heardLose]
  change p.shelf.stock j + line.stock j + _ + 0 = p.shelf.stock j + p.line.stock j + 0
  omega

omit [EquivBEq K] in
theorem setSoftSizeLawful (sound : p.Sound) (n : Option Nat) :
    p.Lawful (p.setSoftSize n) (fun _ => 0) (fun _ => 0) :=
  loseLawful sound (Line.stockFit { p.line with bound := n }) (fun _ mem => List.mem_of_mem_drop mem)
    (Line.fitWithin _)

omit [EquivBEq K] in
theorem purgeLawful (sound : p.Sound) (now : Nat) :
    p.Lawful (p.purge now) (fun _ => 0) (fun _ => 0) := by
  obtain ⟨final, fits, balance⟩ := loseLawful sound (p.line.stockPurge now)
    (fun _ mem => (List.mem_filter.mp mem).1)
    (fun most bound => Nat.le_trans (List.length_filter_le _ _) (sound.within most bound))
  exact ⟨final, fits, balance⟩

theorem storeAllSound (sound : p.Sound) (filter : Filter K V) (now : Nat) {entries : List (K × V)}
    (valid : ∀ e ∈ entries, Identity.valid e.1 = true) :
    (p.storeAll filter now entries).plain.Sound ∧
    (p.Fits → (p.storeAll filter now entries).plain.Fits) := by
  induction entries generalizing p with
  | nil => exact ⟨sound, id⟩
  | cons e rest ih =>
    have first := storeLawful sound filter now (valid e (by simp)) e.2
    obtain ⟨last, fits⟩ := ih first.sound (fun d mem => valid d (by simp [mem]))
    exact ⟨last, fun before => fits (first.fits before)⟩

end Plain
end TieredCache
