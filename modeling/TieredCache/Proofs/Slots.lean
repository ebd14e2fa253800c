import Mathlib.Data.List.Induction
import Mathlib.Order.Bounds.Basic
import TieredCache.Proofs.Intact

/-! How many slots the slab of the primary tier has. A slot that is left is taken again before another is added,
so that there are as many as the most entries held at once, pinned or not, since the start or the last clearing. -/
namespace TieredCache.Recency
variable {K V : Type} [BEq K] {r : Recency K V}

/-- The sizes of the tier since the start or the last clearing, one after every call. -/
def sizes (r : Recency K V) (calls : List (Call K V)) : Set Nat :=
  {size | ∃ prior rest, prior ++ rest = calls ∧ Call.clear ∉ rest ∧ (r.run prior).size = size}

theorem runSnoc (r : Recency K V) (calls : List (Call K V)) (call : Call K V) :
    r.run (calls ++ [call]) = ((r.run calls).step call).2 := by
  simp [run]

/- Where a run with one more call can be cut: before that call or after it. -/
theorem cutSnoc {E : Type} {prior rest calls : List E} {call : E} (cut : prior ++ rest = calls ++ [call]) :
    rest = [] ∧ prior = calls ++ [call] ∨ ∃ others, rest = others ++ [call] ∧ prior ++ others = calls := by
  rcases List.eq_nil_or_concat rest with rfl | ⟨others, last, rfl⟩
  · exact .inl ⟨rfl, by simpa using cut⟩
  · rw [List.concat_eq_append, ← List.append_assoc] at cut
    obtain ⟨same, last_call⟩ := List.append_inj' cut rfl
    obtain rfl := List.singleton_inj.mp last_call
    exact .inr ⟨others, List.concat_eq_append, same⟩

theorem sizesNone (r : Recency K V) : r.sizes [] = {r.size} := by
  ext size
  constructor
  · rintro ⟨prior, rest, whole, _, rfl⟩
    obtain ⟨rfl, rfl⟩ := List.append_eq_nil_iff.mp whole
    rfl
  · rintro rfl
    exact ⟨[], [], rfl, List.not_mem_nil, rfl⟩

theorem sizesClear (r : Recency K V) (calls : List (Call K V)) :
    r.sizes (calls ++ [.clear]) = {(r.run (calls ++ [.clear])).size} := by
  ext size
  constructor
  · rintro ⟨prior, rest, cut, kept, rfl⟩
    rcases cutSnoc cut with ⟨rfl, rfl⟩ | ⟨others, rfl, _⟩
    · rfl
    · exact absurd (by simp) kept
  · rintro rfl
    exact ⟨calls ++ [.clear], [], List.append_nil _, List.not_mem_nil, rfl⟩

theorem sizesNext (r : Recency K V) (calls : List (Call K V)) {call : Call K V} (kept : call ≠ .clear) :
    r.sizes (calls ++ [call]) = Insert.insert (r.run (calls ++ [call])).size (r.sizes calls) := by
  ext size
  constructor
  · rintro ⟨prior, rest, cut, none, rfl⟩
    rcases cutSnoc cut with ⟨rfl, rfl⟩ | ⟨others, rfl, whole⟩
    · exact .inl rfl
    · exact .inr ⟨prior, others, whole, fun mem => none (by simp [mem]), rfl⟩
  · rintro (rfl | ⟨prior, rest, rfl, none, rfl⟩)
    · exact ⟨calls ++ [call], [], List.append_nil _, List.not_mem_nil, rfl⟩
    · exact ⟨prior, rest ++ [call], (List.append_assoc ..).symm, by simp [none, kept.symm], rfl⟩

/- The slab grows by an entry that finds no slot free and by nothing else. -/
theorem insertSlots (r : Recency K V) (k : K) (v : V) (pinned : Bool) :
    let after := (r.insert k v pinned).2
    after.slab.slots.size = r.slab.slots.size ∨
    r.slab.free = [] ∧ after.slab.slots.size = r.slab.slots.size + 1 ∧ after.size = r.size + 1 := by
  dsimp only
  unfold insert
  cases index : r.index.find? k with
  | some i =>
    refine .inl ?_
    dsimp only
    rw [touchedSize]
    exact Slab.updateSize _ _ _
  | none =>
    have entered (i : Nat) : (r.index.insert k i).size = r.index.size + 1 := by
      unfold Dict.size
      rw [Dict.insertAbsent index, List.length_append]
      rfl
    cases free : r.slab.free with
    | nil =>
      refine .inr ⟨rfl, ?_⟩
      have pushed := Slab.occupyFull r.slab { key := k, value := v, pinned := pinned } free
      cases pinned with
      | true => exact ⟨by simp [pushed], entered _⟩
      | false => exact ⟨by simp [pushed, Slab.pushNewestSize], entered _⟩
    | cons i rest =>
      refine .inl ?_
      have taken := Slab.occupyFree r.slab { key := k, value := v, pinned := pinned } (by simp [free])
      cases pinned with
      | true => exact taken
      | false => exact (Slab.pushNewestSize _ _).trans taken

theorem removeSlots (r : Recency K V) (k : K) :
    (r.remove k).2.slab.slots.size = r.slab.slots.size := by
  unfold remove
  cases r.index.find? k with
  | none => rfl
  | some i =>
    dsimp only
    split
    · exact Slab.vacateSize _ _
    · exact (Slab.vacateSize _ _).trans (Slab.detachSize _ _)

theorem setPinnedSlots (r : Recency K V) (k : K) (pinned : Bool) :
    (r.setPinned k pinned).2.slab.slots.size = r.slab.slots.size := by
  unfold setPinned
  cases r.index.find? k with
  | none => rfl
  | some i =>
    dsimp only
    split
    · rfl
    · split
      · exact (Slab.updateSize _ _ _).trans (Slab.detachSize _ _)
      · exact (Slab.pushNewestSize _ _).trans (Slab.updateSize _ _ _)

theorem evictOldestSlots (r : Recency K V) :
    (r.evictOldest).2.slab.slots.size = r.slab.slots.size ∧ (r.evictOldest).2.size ≤ r.size := by
  unfold evictOldest
  split
  · exact ⟨rfl, Nat.le_refl _⟩
  · split
    · exact ⟨rfl, Nat.le_refl _⟩
    · exact ⟨(Slab.vacateSize _ _).trans (Slab.detachSize _ _), List.length_filter_le _ _⟩

theorem evictSlots (r : Recency K V) (times : Nat) :
    (r.evict times).2.slab.slots.size = r.slab.slots.size ∧ (r.evict times).2.size ≤ r.size := by
  induction times generalizing r with
  | zero => exact ⟨rfl, Nat.le_refl _⟩
  | succ n ih =>
    obtain ⟨same, fewer⟩ := r.evictOldestSlots
    unfold evict
    split
    · next left evicted =>
      rw [evicted] at same fewer
      exact ⟨same, fewer⟩
    · next e left evicted =>
      rw [evicted] at same fewer
      obtain ⟨later_same, later_fewer⟩ := ih left
      exact ⟨later_same.trans same, Nat.le_trans later_fewer fewer⟩

theorem stepSlots (r : Recency K V) {call : Call K V} (kept : call ≠ .clear) :
    let after := (r.step call).2
    after.slab.slots.size = r.slab.slots.size ∨
    r.slab.free = [] ∧ after.slab.slots.size = r.slab.slots.size + 1 ∧ after.size = r.size + 1 := by
  cases call with
  | insert k v pinned => exact r.insertSlots k v pinned
  | get k =>
    refine .inl ?_
    show (r.get k).2.slab.slots.size = _
    unfold get
    cases r.index.find? k with
    | none => rfl
    | some i => exact r.touchedSize i
  | remove k => exact .inl (r.removeSlots k)
  | setPinned k pinned => exact .inl (r.setPinnedSlots k pinned)
  | evictOldest => exact .inl r.evictOldestSlots.1
  | shed => exact .inl (r.evictSlots r.excess).1
  | clear => exact absurd rfl kept
  | peek | contains | setCapacity | capacity | overCapacity => exact .inl rfl

theorem Layout.slotsCounted {chain aside : List (Slab.Cell K V)} (layout : r.Layout chain aside) :
    r.slab.slots.size = r.size + r.slab.free.length := by
  have slots := layout.slab.size
  have entries := layout.index.length_eq
  rw [List.length_map, List.length_append] at entries
  unfold size Dict.size
  omega

variable [EquivBEq K] {s : Shelf K V}

theorem stepPeak (shows : r.Shows s) {call : Call K V} (kept : call ≠ .clear) :
    (r.step call).2.slab.slots.size = max (r.step call).2.size r.slab.slots.size := by
  obtain ⟨_, _, later, _⟩ := (stepShows shows call).2
  obtain ⟨_, _, layout, _⟩ := shows
  have after := later.slotsCounted
  have before := layout.slotsCounted
  rcases r.stepSlots kept with same | ⟨full, more, entered⟩
  · omega
  · rw [full, List.length_nil] at before
    omega

theorem runPeak (capacity : Option Nat) (byUse : Bool) (calls : List (Call K V)) :
    let start : Recency K V := empty capacity byUse
    IsGreatest (start.sizes calls) (start.run calls).slab.slots.size := by
  intro start
  induction calls using List.reverseRecOn with
  | nil =>
    rw [sizesNone]
    exact isGreatest_singleton
  | append_singleton calls call ih =>
    by_cases cleared : call = .clear
    · subst cleared
      rw [sizesClear, runSnoc]
      exact isGreatest_singleton
    · have shows := (runShows (emptyShows (K := K) (V := V) capacity byUse) calls).2
      rw [sizesNext start calls cleared, runSnoc, stepPeak shows cleared]
      exact ih.insert _

/-- No slot is lost: a slot holds an entry or is free, and one is added only when none is free. While entries are
evicted the tier holds no more than before. -/
structure Thrifty (tier : Recency K V) : Prop where
  counted : tier.slab.slots.size = tier.size + tier.slab.free.length
  grown : ∀ call, tier.slab.slots.size < (tier.step call).2.slab.slots.size →
    (∀ i < tier.slab.slots.size, ∃ n, tier.slab.node? i = some n) ∧
    (tier.step call).2.slab.slots.size = tier.slab.slots.size + 1
  shedding : ∀ times, (tier.evict times).2.size ≤ tier.size

omit [EquivBEq K] in
theorem Layout.thrifty {chain aside : List (Slab.Cell K V)} (layout : r.Layout chain aside) : r.Thrifty where
  counted := layout.slotsCounted
  grown := by
    intro call grows
    by_cases cleared : call = .clear
    · subst cleared
      exact absurd grows (Nat.not_lt_zero _)
    · rcases r.stepSlots cleared with same | ⟨full, more, _⟩
      · exact absurd same (Nat.ne_of_gt grows)
      · refine ⟨fun i inside => Option.ne_none_iff_exists'.mp (fun empty => ?_), more⟩
        have free := layout.slab.vacantFree.mpr ⟨inside, empty⟩
        rw [full] at free
        cases free
  shedding := fun times => (r.evictSlots times).2

theorem runReused (capacity : Option Nat) (byUse : Bool) (calls : List (Call K V)) :
    let start : Recency K V := empty capacity byUse
    let tier := start.run calls
    IsGreatest (start.sizes calls) tier.slab.slots.size ∧ tier.Thrifty := by
  intro start tier
  obtain ⟨chain, aside, layout, _⟩ := (runShows (emptyShows (K := K) (V := V) capacity byUse) calls).2
  exact ⟨runPeak capacity byUse calls, layout.thrifty⟩

/- Four entries are forgotten with the clearing. Of the three held after it, one is pinned; its slot and those of the
two evicted are taken again, and at the end two entries are left in three slots. -/
theorem runReusedSmall :
    let calls : List (Call Nat Nat) :=
      [.insert 6 0 false, .insert 7 0 true, .insert 8 0 false, .insert 9 0 false, .clear, .insert 0 0 false,
        .insert 1 10 true, .insert 2 20 false, .remove 1, .insert 3 30 false, .setPinned 3 true,
        .setCapacity (some 0), .shed, .insert 4 40 false, .insert 5 50 true, .evictOldest]
    let start : Recency Nat Nat := empty none true
    let tier := start.run calls
    (tier.slab.slots.size = 3 ∧ tier.size = 2 ∧ tier.slab.free = [2] ∧
      (start.run (calls.take 4)).slab.slots.size = 4) ∧
    IsGreatest (start.sizes calls) tier.slab.slots.size ∧ tier.Thrifty :=
  ⟨by decide, runReused none true _⟩

end TieredCache.Recency
