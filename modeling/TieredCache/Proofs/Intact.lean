import TieredCache.Proofs.Strict

/-! What holds between two calls of the primary tier, said of its links, its index and its free slots and of
nothing else. It is why no call is ever at fault. -/
namespace TieredCache
open Keyed (Apart)
variable {K V : Type}

namespace Slab

/-- The slots that are met where links are followed to a node that names none. No link of the way leads to an
empty slot. -/
inductive Follows (s : Slab K V) (link : Node K V → Option Nat) : Option Nat → List Nat → Prop where
  | done : Follows s link none []
  | next {i : Nat} {n : Node K V} {rest : List Nat} (held : s.node? i = some n)
      (later : Follows s link (link n) rest) : Follows s link (some i) (i :: rest)

theorem followsLinked {s : Slab K V} {cells : List (Cell K V)} {newer : Option Nat}
    (linked : s.Linked newer cells none) : s.Follows Node.older (first cells) (slotsOf cells) := by
  induction cells generalizing newer with
  | nil => exact .done
  | cons c rest ih =>
    obtain ⟨held, others⟩ := linked
    rw [Option.or_none] at held
    exact .next held (ih others)

namespace Layout
variable {s : Slab K V} {chain aside : List (Cell K V)} {i j : Nat} {n m : Node K V}

theorem olderInverse (layout : s.Layout chain aside) (upper : s.node? i = some n) (lower : s.node? j = some m)
    (older : n.older = some j) : m.newer = some i := by
  rcases layout.nodeCell upper with ⟨before, c, after, rfl, rfl, rfl⟩ | ⟨c, _, _, rfl⟩
  · obtain ⟨d, next, rfl⟩ := Option.map_eq_some_iff.mp (show first after = some j from older)
    obtain ⟨rest, rfl⟩ := List.head?_eq_some_iff.mp next
    have split : before ++ c :: d :: rest = (before ++ [c]) ++ d :: rest := by simp
    have held := layout.chainNode split
    rw [lower] at held
    rw [Option.some.inj held]
    simp [Cell.node, last]
  · cases older

theorem newerInverse (layout : s.Layout chain aside) (upper : s.node? i = some n) (lower : s.node? j = some m)
    (newer : m.newer = some i) : n.older = some j := by
  rcases layout.nodeCell lower with ⟨before, c, after, rfl, rfl, rfl⟩ | ⟨c, _, _, rfl⟩
  · obtain ⟨d, next, rfl⟩ := Option.map_eq_some_iff.mp (show last before = some i from newer)
    obtain ⟨rest, rfl⟩ := List.getLast?_eq_some_iff.mp next
    have split : rest ++ [d] ++ c :: after = rest ++ d :: c :: after := by simp
    have held := layout.chainNode split
    rw [upper] at held
    rw [Option.some.inj held]
    simp [Cell.node, first]
  · cases newer

theorem newestFirst (layout : s.Layout chain aside) (newest : s.newest = some i) (held : s.node? i = some n) :
    n.newer = none := by
  obtain ⟨c, top, rfl⟩ := Option.map_eq_some_iff.mp (layout.newest.symm.trans newest)
  obtain ⟨rest, rfl⟩ := List.head?_eq_some_iff.mp top
  have at_c := layout.chainNode (List.nil_append (c :: rest)).symm
  rw [held] at at_c
  rw [Option.some.inj at_c]
  rfl

theorem oldestLast (layout : s.Layout chain aside) (oldest : s.oldest = some i) (held : s.node? i = some n) :
    n.older = none := by
  obtain ⟨c, bottom, rfl⟩ := Option.map_eq_some_iff.mp (layout.oldest.symm.trans oldest)
  obtain ⟨rest, rfl⟩ := List.getLast?_eq_some_iff.mp bottom
  have at_c := layout.chainNode (show rest ++ [c] = rest ++ c :: [] from rfl)
  rw [held] at at_c
  rw [Option.some.inj at_c]
  rfl

theorem vacantFree (layout : s.Layout chain aside) : i ∈ s.free ↔ i < s.slots.size ∧ s.node? i = none := by
  constructor
  · exact fun mem => ⟨layout.slotInside i (List.mem_append_right _ mem), layout.vacant i mem⟩
  · rintro ⟨lt, empty⟩
    rcases List.mem_append.mp (layout.slots.mem_iff.mpr (List.mem_range.mpr lt)) with cell | free
    · rcases List.mem_append.mp cell with chained | alone
      · obtain ⟨c, mem, rfl⟩ := List.mem_map.mp chained
        obtain ⟨newer, older, held⟩ := layout.chainHeld mem
        rw [empty] at held
        cases held
      · obtain ⟨c, mem, rfl⟩ := List.mem_map.mp alone
        rw [layout.alone c mem] at empty
        cases empty
    · exact free

end Layout
end Slab

namespace Recency
variable [BEq K]

/-- The invariant: what the links, the index, the free slots and the count of the tier say of one another. -/
structure Intact (r : Recency K V) : Prop where
  forward : r.slab.Follows Node.older r.slab.newest r.slab.chain
  once : r.slab.chain.Nodup
  ends : r.slab.chain.head? = r.slab.newest ∧ r.slab.chain.getLast? = r.slab.oldest
  chained : ∀ i, i ∈ r.slab.chain ↔ ∃ n, r.slab.node? i = some n ∧ n.pinned = false
  inverse : ∀ i j n m, r.slab.node? i = some n → r.slab.node? j = some m →
    (n.older = some j ↔ m.newer = some i)
  newest : ∀ i n, r.slab.newest = some i → r.slab.node? i = some n → n.newer = none
  oldest : ∀ i n, r.slab.oldest = some i → r.slab.node? i = some n → n.older = none
  alone : ∀ i n, r.slab.node? i = some n → n.pinned = true → n.newer = none ∧ n.older = none
  keyed : ∀ e ∈ r.index.entries, ∃ n, r.slab.node? e.2 = some n ∧ n.key = e.1
  indexed : ∀ i n, r.slab.node? i = some n → (n.key, i) ∈ r.index.entries
  apart : Apart Prod.fst r.index.entries ∧ (r.index.entries.map Prod.snd).Nodup
  free : r.slab.free.Nodup ∧ ∀ i, i ∈ r.slab.free ↔ i < r.slab.slots.size ∧ r.slab.node? i = none
  count : r.unpinned = r.slab.chain.length
  bare : (r.slab.newest = none ↔ r.unpinned = 0) ∧ (r.slab.oldest = none ↔ r.unpinned = 0)

variable [EquivBEq K]

theorem Layout.intact {r : Recency K V} {chain aside : List (Slab.Cell K V)} (layout : r.Layout chain aside) :
    r.Intact where
  -- What is said of slots and nodes is read off the cells, one after another or aside.
  forward := by
    rw [layout.slab.walked, layout.slab.newest]
    exact Slab.followsLinked layout.slab.linked
  once := layout.slab.walked ▸ layout.slab.chainNodup
  ends := by
    rw [layout.slab.walked, layout.slab.newest, layout.slab.oldest]
    exact ⟨List.head?_map, List.getLast?_map⟩
  chained := by
    intro i
    rw [layout.slab.walked]
    constructor
    · intro mem
      obtain ⟨c, cell, rfl⟩ := List.mem_map.mp mem
      obtain ⟨newer, older, held⟩ := layout.slab.chainHeld cell
      exact ⟨_, held, layout.unpinned c cell⟩
    · rintro ⟨n, held, loose⟩
      rcases layout.slab.nodeCell held with ⟨before, c, after, rfl, rfl, _⟩ | ⟨c, mem, _, rfl⟩
      · exact List.mem_map_of_mem (by simp)
      · rw [show (c.node none none).pinned = true from layout.pinned c mem] at loose
        cases loose
  inverse := fun i j n m upper lower =>
    ⟨layout.slab.olderInverse upper lower, layout.slab.newerInverse upper lower⟩
  newest := fun i n => layout.slab.newestFirst
  oldest := fun i n => layout.slab.oldestLast
  alone := by
    intro i n held fixed
    rcases layout.slab.nodeCell held with ⟨before, c, after, rfl, _, rfl⟩ | ⟨c, _, _, rfl⟩
    · rw [show (c.node _ _).pinned = false from layout.unpinned c (by simp)] at fixed
      cases fixed
    · exact ⟨rfl, rfl⟩
  keyed := by
    intro e mem
    obtain ⟨c, cell, rfl⟩ := List.mem_map.mp (layout.index.mem_iff.mp mem)
    obtain ⟨newer, older, held⟩ := layout.held cell
    exact ⟨_, held, rfl⟩
  indexed := by
    intro i n held
    refine layout.index.mem_iff.mpr ?_
    rcases layout.slab.nodeCell held with ⟨before, c, after, rfl, rfl, rfl⟩ | ⟨c, mem, rfl, rfl⟩
    · exact List.mem_map.mpr ⟨c, by simp, rfl⟩
    · exact List.mem_map.mpr ⟨c, List.mem_append_right _ mem, rfl⟩
  apart := by
    have nodup := (List.nodup_append.mp layout.slab.nodup).1
    rw [Slab.slotsOf, Slab.slotsOf, ← List.map_append] at nodup
    have slots := (layout.index.map Prod.snd).nodup_iff
    rw [List.map_map] at slots
    have keys := (Keyed.apartMapped Prod.fst (fun c : Slab.Cell K V => (c.key, c.slot)) _).mpr layout.apart
    exact ⟨(Keyed.apartPerm layout.index).mpr keys, slots.mpr nodup⟩
  free := ⟨(List.nodup_append.mp layout.slab.nodup).2.1, fun i => layout.slab.vacantFree⟩
  count := by
    rw [layout.count, layout.slab.walked]
    exact (List.length_map _).symm
  bare := by
    rw [layout.slab.newest, layout.slab.oldest, layout.count]
    cases chain with
    | nil => exact ⟨⟨fun _ => rfl, fun _ => rfl⟩, ⟨fun _ => rfl, fun _ => rfl⟩⟩
    | cons c rest => simp [Slab.first, Slab.last]

theorem runIntact (capacity : Option Nat) (byUse : Bool) (calls : List (Call K V)) :
    let start : Recency K V := empty capacity byUse
    let tier := start.run calls
    tier.Intact ∧ start.runStrict calls = .ok tier ∧
    (∀ call, tier.stepStrict call = .ok (tier.step call)) ∧ (tier.shed).2.overCapacity = false := by
  intro start tier
  have bare := emptyShows (K := K) (V := V) capacity byUse
  obtain ⟨chain, aside, layout, _⟩ := (runShows bare calls).2
  exact ⟨layout.intact, runShownStrict bare calls, layout.stepStrict, shedStrictFits layout.shedStrict⟩

/- The slot of 1 is taken again by 4, 3 is pinned out of the middle of the chain and 2 let into it; then the two
oldest go, the first of them because only two may stay. -/
theorem runIntactSmall :
    let calls : List (Call Nat Nat) :=
      [.insert 0 0 false, .insert 1 10 false, .insert 2 20 true, .insert 3 30 false, .remove 1,
        .insert 4 40 false, .get 0, .setPinned 3 true, .setPinned 2 false, .setCapacity (some 2), .shed,
        .evictOldest]
    let start : Recency Nat Nat := empty none true
    let tier := start.run calls
    (tier.slab.chain = [2] ∧ tier.slab.free = [0, 1] ∧ tier.index.entries = [(2, 2), (3, 3)]) ∧
    tier.Intact ∧ start.runStrict calls = .ok tier ∧
    (∀ call, tier.stepStrict call = .ok (tier.step call)) ∧ (tier.shed).2.overCapacity = false :=
  ⟨by decide, runIntact none true _⟩

end Recency
end TieredCache
