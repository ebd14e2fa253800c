import TieredCache.Proofs.Shelf

/-! What every call of the primary tier does to the shelf it shows. -/
namespace TieredCache.Recency
open Keyed (Apart find without)
open Slab (Cell)
variable {K V : Type} [BEq K] {r : Recency K V} {s : Shelf K V}

theorem emptyShows (capacity : Option Nat) (byUse : Bool) :
    (empty capacity byUse : Recency K V).Shows ⟨[], [], capacity, byUse⟩ := by
  refine ⟨[], [], ⟨Slab.Layout.empty, ?_, ?_, ?_, ?_, rfl⟩, rfl⟩
  · exact List.Perm.nil
  · exact List.Pairwise.nil
  · simp
  · simp

theorem capacityShown (shows : r.Shows s) : s.capacity = r.capacity := by
  obtain ⟨chain, aside, _, rfl⟩ := shows
  rfl

theorem byUseShown (shows : r.Shows s) : s.byUse = r.byUse := by
  obtain ⟨chain, aside, _, rfl⟩ := shows
  rfl

theorem clearShows (shows : r.Shows s) : r.clear.Shows ⟨[], [], s.capacity, s.byUse⟩ := by
  rw [capacityShown shows, byUseShown shows]
  exact emptyShows r.capacity r.byUse

theorem setCapacityShows (shows : r.Shows s) (capacity : Option Nat) :
    (r.setCapacity capacity).Shows { s with capacity } := by
  obtain ⟨chain, aside, layout, rfl⟩ := shows
  exact ⟨chain, aside, ⟨layout.slab, layout.index, layout.apart, layout.unpinned, layout.pinned,
    layout.count⟩, rfl⟩

theorem unpinnedShown (shows : r.Shows s) : r.unpinnedEntries = s.recent := by
  obtain ⟨chain, aside, layout, rfl⟩ := shows
  exact layout.slab.chained

theorem pinnedShown (shows : r.Shows s) : r.pinnedEntries.Perm s.pinned := by
  obtain ⟨chain, aside, layout, rfl⟩ := shows
  exact layout.slab.pinnedPerm layout.unpinned layout.pinned

theorem sizeShown (shows : r.Shows s) : r.size = s.recent.length + s.pinned.length := by
  obtain ⟨chain, aside, layout, rfl⟩ := shows
  simpa [shelf, size, Dict.size] using layout.index.length_eq

theorem indexKeys (shows : r.Shows s) : r.index.keys.Perm ((s.recent ++ s.pinned).map Prod.fst) := by
  obtain ⟨chain, aside, layout, rfl⟩ := shows
  have keys := layout.index.map Prod.fst
  rw [List.map_map] at keys
  rw [shelf, ← List.map_append, List.map_map]
  exact keys

theorem indexNode (shows : r.Shows s) {e : K × Nat} (mem : e ∈ r.index.entries) :
    ∃ node, r.slab.node? e.2 = some node ∧
      if node.pinned then e.1 ∈ s.pinned.map Prod.fst else e.1 ∈ s.recent.map Prod.fst := by
  obtain ⟨chain, aside, layout, rfl⟩ := shows
  obtain ⟨c, cell, rfl⟩ := List.mem_map.mp (layout.index.mem_iff.mp mem)
  obtain ⟨newer, older, held⟩ := layout.held cell
  refine ⟨_, held, ?_⟩
  rcases List.mem_append.mp cell with chained | alone
  · rw [if_neg (by simp [Slab.Cell.node, layout.unpinned c chained])]
    exact List.mem_map_of_mem (List.mem_map_of_mem chained)
  · rw [if_pos (show (c.node newer older).pinned = true from layout.pinned c alone)]
    exact List.mem_map_of_mem (List.mem_map_of_mem alone)

theorem indexUnpinned (shows : r.Shows s) :
    r.index.entries.countP (fun e => !r.slab.isPinned e.2) = s.recent.length := by
  obtain ⟨chain, aside, layout, rfl⟩ := shows
  have loose : ∀ c ∈ chain, (!r.slab.isPinned c.slot) = true := by
    intro c mem
    rw [layout.looseAt mem]
    rfl
  have fixed : ∀ c ∈ aside, ¬(!r.slab.isPinned c.slot) = true := by
    intro c mem
    rw [layout.fixedAt mem]
    simp
  rw [layout.index.countP_eq, List.countP_map, List.countP_append]
  have every : List.countP ((fun e : K × Nat => !r.slab.isPinned e.2) ∘ fun c => (c.key, c.slot)) chain =
      chain.length := List.countP_eq_length.mpr loose
  have never : List.countP ((fun e : K × Nat => !r.slab.isPinned e.2) ∘ fun c => (c.key, c.slot)) aside =
      0 := List.countP_eq_zero.mpr fixed
  rw [every, never]
  simp [shelf]

theorem shelfFind (chain aside : List (Cell K V)) (k : K) :
    (r.shelf chain aside).find? k = (find Cell.key (chain ++ aside) k).map Cell.value := by
  unfold shelf Shelf.find?
  rw [cellFind, cellFind, Keyed.findAppend, ← Option.map_or, Option.map_map]
  rfl

variable [EquivBEq K]

theorem indexShown (shows : r.Shows s) (k : K) :
    (r.index.find? k).bind (fun i => (r.slab.node? i).map Node.value) = s.find? k := by
  obtain ⟨chain, aside, layout, rfl⟩ := shows
  rw [shelfFind, layout.indexFind]
  cases found : find Cell.key (chain ++ aside) k with
  | none => rfl
  | some c => exact layout.valueAt (Keyed.findMem found).1

theorem peekShown (shows : r.Shows s) (k : K) : r.peek k = s.find? k := by
  rw [← indexShown shows]
  unfold peek
  cases r.index.find? k with
  | none => rfl
  | some i => cases held : r.slab.node? i <;> simp [held]

theorem containsShown (shows : r.Shows s) (k : K) : r.contains k = (s.find? k).isSome := by
  obtain ⟨chain, aside, layout, rfl⟩ := shows
  rw [shelfFind, contains, Dict.containsFind, layout.indexFind]
  simp

theorem getShows (shows : r.Shows s) (k : K) :
    (r.get k).1 = s.find? k ∧ (r.get k).2.Shows (s.touch k) := by
  have value := indexShown shows k
  obtain ⟨chain, aside, layout, rfl⟩ := shows
  unfold get
  rcases layout.place k with ⟨index, out, _⟩ | ⟨before, after, c, rfl, index, at_k, _⟩ |
    ⟨before, after, c, rfl, index, at_k, out⟩
  · rw [index] at value ⊢
    exact ⟨value, chain, aside, layout, by simp [shelf, Shelf.touch, cellsOut out]⟩
  · rw [index] at value ⊢
    refine ⟨value, ?_⟩
    have around := cellsAround layout.chainApart at_k
    by_cases byUse : r.byUse = true
    · refine ⟨c :: (before ++ after), aside, layout.touchChained byUse, ?_⟩
      simp only [shelf, Shelf.touch, byUse, if_true, around.1, around.2]
      rfl
    · have same : r.touched c.slot = r.slab := by simp [touched, byUse]
      refine ⟨before ++ c :: after, aside, ?_, ?_⟩
      · dsimp only
        rw [same]
        exact layout
      · simp [shelf, Shelf.touch, byUse]
  · have same : r.touched c.slot = r.slab := layout.touchAlone (by simp)
    rw [index] at value ⊢
    refine ⟨value, chain, before ++ c :: after, ?_, ?_⟩
    · dsimp only
      rw [same]
      exact layout
    · simp [shelf, Shelf.touch, cellsOut out]

theorem Layout.revalue {chain aside : List (Cell K V)} (layout : r.Layout chain aside)
    {c : Cell K V} {k : K} (mem : c ∈ chain ++ aside) (at_k : (c.key == k) = true) (v : V) :
    Layout { r with slab := r.slab.update c.slot (fun n => { n with value := v }) }
      (chain.map (Cell.revalued c.slot v)) (aside.map (Cell.revalued c.slot v)) ∧
    (chain.map (Cell.revalued c.slot v)).map Cell.entry = Shelf.revalued k v (chain.map Cell.entry) ∧
    (aside.map (Cell.revalued c.slot v)).map Cell.entry = Shelf.revalued k v (aside.map Cell.entry) := by
  have entry : ∀ d ∈ chain ++ aside,
      (d.revalued c.slot v).entry = if d.key == k then (d.key, v) else d.entry := by
    intro d also
    have same := layout.sameCell mem also at_k
    unfold Cell.revalued
    by_cases at_c : d.slot = c.slot
    · rw [if_pos at_c, if_pos (same.mp at_c)]
      rfl
    · rw [if_neg at_c, if_neg (fun at_d => at_c (same.mpr at_d))]
  have kept : ∀ d : Cell K V, (d.revalued c.slot v).key = d.key ∧
      (d.revalued c.slot v).pinned = d.pinned := by
    intro d
    unfold Cell.revalued
    split <;> exact ⟨rfl, rfl⟩
  have moved := layout.moved (layout.slab.revalue c.slot v)
    (by simp [Function.comp_def, Slab.revaluedSlot, kept])
    (by simpa [kept] using layout.unpinned) (by simpa [kept] using layout.pinned)
  refine ⟨?_, ?_, ?_⟩
  · rw [List.length_map, ← layout.count] at moved
    exact moved
  · unfold Shelf.revalued
    rw [List.map_map, List.map_map]
    exact List.map_congr_left (fun d also => entry d (by simp [also]))
  · unfold Shelf.revalued
    rw [List.map_map, List.map_map]
    exact List.map_congr_left (fun d also => entry d (by simp [also]))

theorem insertHeld (shows : r.Shows s) {k : K} (held : (s.find? k).isSome) (v : V) (pinned : Bool) :
    (r.insert k v pinned).1 = s.find? k ∧ (r.insert k v pinned).2.Shows ((s.replace k v).touch k) := by
  have value := indexShown shows k
  have contains := containsShown shows k
  obtain ⟨chain, aside, layout, rfl⟩ := shows
  cases index : r.index.find? k with
  | none => simp [Recency.contains, Dict.containsFind, index, held] at contains
  | some i =>
    obtain ⟨c, mem, at_k, rfl⟩ := layout.indexCell index
    obtain ⟨revalued, recent, alone⟩ := layout.revalue mem at_k v
    let replaced : Recency K V := { r with slab := r.slab.update c.slot (fun n => { n with value := v }) }
    have shown : replaced.Shows ((r.shelf chain aside).replace k v) := by
      refine ⟨_, _, revalued, ?_⟩
      simp only [shelf, Shelf.replace, recent, alone]
      rfl
    have touched := (getShows shown k).2
    have result : r.insert k v pinned =
        ((r.slab.node? c.slot).map Node.value, (replaced.get k).2) := by
      unfold insert get
      rw [index]
    rw [index] at value
    rw [result]
    exact ⟨value, touched⟩

theorem Layout.joined {chain aside chain' aside' : List (Cell K V)} (layout : r.Layout chain aside)
    {slab : Slab K V} {c : Cell K V} (slab_layout : slab.Layout chain' aside')
    (perm : (chain' ++ aside').Perm (c :: (chain ++ aside))) (absent : r.index.find? c.key = none)
    (unpinned : ∀ d ∈ chain', d.pinned = false) (pinned : ∀ d ∈ aside', d.pinned = true) :
    Layout { r with index := r.index.insert c.key c.slot, slab := slab, unpinned := chain'.length }
      chain' aside' where
  slab := slab_layout
  index := by
    rw [Dict.insertAbsent absent]
    have last := List.perm_append_singleton (c.key, c.slot) r.index.entries
    refine last.trans ((layout.index.cons _).trans ?_)
    exact (perm.map (fun d : Cell K V => (d.key, d.slot))).symm
  apart := by
    rw [layout.indexFind, Option.map_eq_none_iff, Keyed.findNone] at absent
    exact (Keyed.apartPerm perm).mpr (Keyed.apartCons.mpr ⟨absent, layout.apart⟩)
  unpinned := unpinned
  pinned := pinned
  count := rfl

theorem insertAbsent (shows : r.Shows s) {k : K} (absent : s.find? k = none) (v : V) (pinned : Bool) :
    (r.insert k v pinned).1 = none ∧ (r.insert k v pinned).2.Shows (s.enter k v pinned) := by
  have contains := containsShown shows k
  obtain ⟨chain, aside, layout, rfl⟩ := shows
  have index : r.index.find? k = none := by
    simpa [Recency.contains, Dict.containsFind, absent] using contains
  have occupied := layout.slab.occupy k v pinned
  have count := layout.count
  unfold insert
  rw [index]
  dsimp only
  generalize r.slab.occupy { key := k, value := v, pinned := pinned } = taken at occupied ⊢
  let c : Cell K V := ⟨taken.1, k, v, pinned⟩
  have absent_c : r.index.find? c.key = none := index
  cases pinned with
  | true =>
    have joined := layout.joined occupied List.perm_middle absent_c layout.unpinned
      (by simpa using layout.pinned)
    rw [← count] at joined
    exact ⟨rfl, chain, c :: aside, joined, rfl⟩
  | false =>
    have joined := layout.joined occupied.pushNewest (List.Perm.refl (c :: (chain ++ aside))) absent_c
      (by simpa using layout.unpinned) layout.pinned
    rw [List.length_cons, ← count] at joined
    exact ⟨rfl, c :: chain, aside, joined, rfl⟩

theorem removeShows (shows : r.Shows s) (k : K) :
    (r.remove k).1 = s.find? k ∧ (r.remove k).2.Shows (s.remove k) := by
  have value := indexShown shows k
  obtain ⟨chain, aside, layout, rfl⟩ := shows
  have count := layout.count
  unfold remove
  rcases layout.place k with ⟨index, out_chain, out_aside⟩ | ⟨before, after, c, rfl, index, at_k, out⟩ |
    ⟨before, after, c, rfl, index, at_k, out⟩
  · rw [index] at value ⊢
    refine ⟨value, chain, aside, layout, ?_⟩
    simp [shelf, Shelf.remove, cellsOut out_chain, cellsOut out_aside]
  · have loose := layout.looseAt (show c ∈ before ++ c :: after by simp)
    have dropped := layout.dropped layout.slab.detach.vacate (outOfChain before after aside c) at_k
      (by simp) (List.Sublist.refl aside)
    have fewer : (before ++ after).length = r.unpinned - 1 := by
      rw [count]
      simp
    rw [fewer] at dropped
    rw [index] at value ⊢
    simp only [loose, Bool.false_eq_true, if_false]
    refine ⟨value, before ++ after, aside, dropped, ?_⟩
    simp only [shelf, Shelf.remove, (cellsAround layout.chainApart at_k).2, (cellsOut out).2]
  · have fixed := layout.fixedAt (show c ∈ before ++ c :: after by simp)
    have dropped := layout.dropped (layout.slab.asidePerm List.perm_middle).vacate
      (outOfAside before after chain c) at_k (List.Sublist.refl chain) (by simp)
    rw [← count] at dropped
    rw [index] at value ⊢
    simp only [fixed, if_true]
    refine ⟨value, chain, before ++ after, dropped, ?_⟩
    simp only [shelf, Shelf.remove, (cellsAround layout.asideApart at_k).2, (cellsOut out).2]

theorem pinShows (shows : r.Shows s) (k : K) :
    (r.setPinned k true).1 = (s.find? k).isSome ∧ (r.setPinned k true).2.Shows (s.pin k) := by
  have contains := containsShown shows k
  obtain ⟨chain, aside, layout, rfl⟩ := shows
  have count := layout.count
  rw [Recency.contains, Dict.containsFind] at contains
  unfold setPinned
  rcases layout.place k with ⟨index, out, _⟩ | ⟨before, after, c, rfl, index, at_k, out⟩ |
    ⟨before, after, c, rfl, index, at_k, out⟩
  · rw [index] at contains ⊢
    exact ⟨contains, chain, aside, layout, by simp [shelf, Shelf.pin, cellsOut out]⟩
  · have loose := layout.looseAt (show c ∈ before ++ c :: after by simp)
    have unpinned := layout.unpinned
    let fixed : Cell K V := { c with pinned := true }
    have perm : ((before ++ after ++ fixed :: aside).map (fun d => (d.key, d.slot))).Perm
        ((before ++ c :: after ++ aside).map (fun d => (d.key, d.slot))) :=
      (List.perm_middle.map _).trans
        ((outOfChain before after aside c).map (fun d : Cell K V => (d.key, d.slot)))
    have moved := layout.moved (layout.slab.detach.repin true) perm
      (fun d mem => unpinned d (((List.sublist_cons_self c after).append_left before).subset mem))
      (by simpa using layout.pinned)
    have fewer : (before ++ after).length = r.unpinned - 1 := by
      rw [count]
      simp
    rw [fewer] at moved
    rw [index] at contains ⊢
    simp only [loose, Bool.false_eq_true, if_false, if_true]
    refine ⟨contains, before ++ after, fixed :: aside, moved, ?_⟩
    have around := cellsAround layout.chainApart at_k
    simp only [shelf, Shelf.pin, around.1, around.2]
    rfl
  · have fixed := layout.fixedAt (show c ∈ before ++ c :: after by simp)
    rw [index] at contains ⊢
    simp only [fixed, if_true]
    exact ⟨contains, chain, before ++ c :: after, layout, by simp [shelf, Shelf.pin, cellsOut out]⟩

theorem unpinShows (shows : r.Shows s) (k : K) :
    (r.setPinned k false).1 = (s.find? k).isSome ∧ (r.setPinned k false).2.Shows (s.unpin k) := by
  have contains := containsShown shows k
  obtain ⟨chain, aside, layout, rfl⟩ := shows
  have count := layout.count
  rw [Recency.contains, Dict.containsFind] at contains
  unfold setPinned
  rcases layout.place k with ⟨index, _, out⟩ | ⟨before, after, c, rfl, index, at_k, out⟩ |
    ⟨before, after, c, rfl, index, at_k, out⟩
  · rw [index] at contains ⊢
    exact ⟨contains, chain, aside, layout, by simp [shelf, Shelf.unpin, cellsOut out]⟩
  · have loose := layout.looseAt (show c ∈ before ++ c :: after by simp)
    rw [index] at contains ⊢
    simp only [loose, if_true]
    exact ⟨contains, before ++ c :: after, aside, layout, by simp [shelf, Shelf.unpin, cellsOut out]⟩
  · have fixed := layout.fixedAt (show c ∈ before ++ c :: after by simp)
    have pinned := layout.pinned
    let loose : Cell K V := { c with pinned := false }
    have perm : ((loose :: chain ++ (before ++ after)).map (fun d => (d.key, d.slot))).Perm
        ((chain ++ (before ++ c :: after)).map (fun d => (d.key, d.slot))) :=
      (outOfAside before after chain c).map (fun d : Cell K V => (d.key, d.slot))
    have moved := layout.moved ((layout.slab.asidePerm List.perm_middle).repin false).pushNewest perm
      (by simpa using layout.unpinned)
      (fun d mem => pinned d (((List.sublist_cons_self c after).append_left before).subset mem))
    rw [List.length_cons, ← count] at moved
    rw [index] at contains ⊢
    simp only [fixed, Bool.true_eq_false, Bool.false_eq_true, if_false]
    refine ⟨contains, loose :: chain, before ++ after, moved, ?_⟩
    have around := cellsAround layout.asideApart at_k
    simp only [shelf, Shelf.unpin, around.1, around.2]
    rfl

theorem evictOldestLast {chain aside : List (Cell K V)} {c : Cell K V}
    (layout : r.Layout (chain ++ [c]) aside) :
    (r.evictOldest).1 = some c.entry ∧ (r.evictOldest).2.Layout chain aside ∧
    (r.evictOldest).2.shelf chain aside = r.shelf chain aside := by
  have oldest : r.slab.oldest = some c.slot := by
    rw [layout.slab.oldest]
    simp [Slab.last]
  obtain ⟨newer, older, held⟩ := layout.held (show c ∈ chain ++ [c] ++ aside by simp)
  have split : (chain ++ [c]) = chain ++ c :: [] := rfl
  have slab : r.slab.Layout (chain ++ c :: []) aside := layout.slab
  have emptied := slab.detach.vacate
  rw [List.append_nil] at emptied
  have perm : (c :: (chain ++ aside)).Perm (chain ++ [c] ++ aside) := by
    simpa using outOfChain chain [] aside c
  have dropped := layout.dropped emptied perm (BEq.refl c.key) (by simp) (List.Sublist.refl aside)
  have fewer : chain.length = r.unpinned - 1 := by
    rw [layout.count]
    simp
  rw [fewer] at dropped
  unfold evictOldest
  rw [oldest]
  dsimp only
  rw [held]
  exact ⟨rfl, dropped, rfl⟩

/- Over its capacity the tier has an entry in order, and the last one goes. -/
theorem evictCrowded {chain aside : List (Cell K V)} (layout : r.Layout chain aside)
    (crowded : r.overCapacity = true) :
    ∃ most rest c left, r.capacity = some most ∧ most < chain.length ∧ chain = rest ++ [c] ∧
      r.evictOldest = (some c.entry, left) ∧ left.Layout rest aside ∧ left.shelf rest aside = r.shelf rest aside := by
  obtain ⟨most, capped, long⟩ : ∃ most, r.capacity = some most ∧ most < chain.length := by
    unfold overCapacity at crowded
    rw [← layout.count]
    split at crowded
    · exact ⟨_, ‹_›, by simpa using crowded⟩
    · cases crowded
  rcases List.eq_nil_or_concat chain with rfl | ⟨rest, c, rfl⟩
  · cases long
  · rw [List.concat_eq_append] at layout long ⊢
    obtain ⟨victim, left, same⟩ := evictOldestLast layout
    exact ⟨most, rest, c, _, capped, long, rfl, Prod.ext victim rfl, left, same⟩

/- Tier and shelf drop the same while they are over their capacity, each time the last entry. -/
theorem shedShows (shows : r.Shows s) : (r.shed).1 = s.surplus ∧ (r.shed).2.Shows s.fitted := by
  obtain ⟨chain, aside, layout, rfl⟩ := shows
  rw [← shedLooped]
  fun_induction shedLoop r generalizing chain with
  | case1 r crowded left stuck =>
    obtain ⟨_, _, _, _, _, _, _, evicted, _, _⟩ := evictCrowded layout crowded
    rw [evicted] at stuck
    cases stuck
  | case2 r crowded e left evicted others ih =>
    obtain ⟨most, rest, c, next, capped, long, rfl, victim, laid, same⟩ := evictCrowded layout crowded
    obtain ⟨first, rfl⟩ := Prod.mk.inj (victim.symm.trans evicted)
    obtain ⟨surplus, fitted⟩ := ih rest laid
    have split : (r.shelf (rest ++ [c]) aside).recent = rest.map Cell.entry ++ [c.entry] := List.map_append
    have step := Shelf.surplusStep capped split (by simpa [shelf] using long)
    rw [same] at surplus fitted
    rw [step.1, step.2, ← Option.some.inj first]
    exact ⟨congrArg (c.entry :: ·) surplus, fitted⟩
  | case3 r fits =>
    have few : ∀ most, r.capacity = some most → (chain.map Cell.entry).length ≤ most := by
      intro most capped
      unfold overCapacity at fits
      rw [List.length_map, ← layout.count]
      simpa [capped] using fits
    obtain ⟨fitted, surplus⟩ := Shelf.fitsSurplus (s := r.shelf chain aside) few
    rw [fitted, surplus]
    exact ⟨rfl, chain, aside, layout, rfl⟩

end TieredCache.Recency
