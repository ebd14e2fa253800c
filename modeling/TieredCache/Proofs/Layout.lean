import TieredCache.Proofs.Chain

/-! How the slots of a slab are divided: the chain, the cells aside, the free ones. Every
operation moves one slot between the three or changes what a cell holds in place. -/
namespace TieredCache.Slab
variable {K V : Type}

theorem slotMoved (before after rest : List Nat) (i : Nat) :
    (before ++ after ++ i :: rest).Perm (before ++ i :: after ++ rest) := by
  have late : (before ++ after ++ i :: rest).Perm (i :: (before ++ after ++ rest)) := List.perm_middle
  have early : (before ++ i :: after ++ rest).Perm (i :: (before ++ after ++ rest)) := by simp
  exact late.trans early.symm

structure Parted (before : List (Cell K V)) (c : Cell K V) (after : List (Cell K V)) : Prop where
  upper : (slotsOf before).Nodup
  lower : (slotsOf after).Nodup
  not_upper : c.slot ∉ slotsOf before
  not_lower : c.slot ∉ slotsOf after
  apart : ∀ i ∈ slotsOf before, i ∉ slotsOf after

structure Layout (s : Slab K V) (chain aside : List (Cell K V)) : Prop where
  linked : s.Linked none chain none
  newest : s.newest = first chain
  oldest : s.oldest = last chain
  alone : ∀ c ∈ aside, s.node? c.slot = some (c.node none none)
  vacant : ∀ i ∈ s.free, s.node? i = none
  slots : (slotsOf chain ++ slotsOf aside ++ s.free).Perm (List.range s.slots.size)

namespace Layout
variable {s : Slab K V} {chain aside : List (Cell K V)}

theorem nodup (layout : s.Layout chain aside) : (slotsOf chain ++ slotsOf aside ++ s.free).Nodup :=
  layout.slots.nodup_iff.mpr List.nodup_range

theorem slotInside (layout : s.Layout chain aside) :
    ∀ i ∈ slotsOf chain ++ slotsOf aside ++ s.free, i < s.slots.size :=
  fun _ mem => List.mem_range.mp (layout.slots.mem_iff.mp mem)

theorem asidePerm (layout : s.Layout chain aside) {other : List (Cell K V)}
    (perm : aside.Perm other) : s.Layout chain other where
  linked := layout.linked
  newest := layout.newest
  oldest := layout.oldest
  alone := fun c mem => layout.alone c (perm.mem_iff.mpr mem)
  vacant := layout.vacant
  slots := ((((perm.map Cell.slot).append_left _).append_right _).symm).trans layout.slots

theorem size (layout : s.Layout chain aside) :
    s.slots.size = chain.length + aside.length + s.free.length := by
  simpa [slotsOf, Nat.add_assoc] using layout.slots.length_eq.symm

theorem walked (layout : s.Layout chain aside) : s.chain = slotsOf chain := by
  unfold Slab.chain
  rw [layout.newest]
  exact walkLinked layout.linked (by have := layout.size; omega)

theorem chainNode (layout : s.Layout chain aside) {before after : List (Cell K V)} {c : Cell K V}
    (split : chain = before ++ c :: after) :
    s.node? c.slot = some (c.node (last before) (first after)) := by
  have linked := layout.linked
  rw [split] at linked
  simpa [Option.or_none] using (linkedAppend.mp linked).2.1

theorem chainHeld (layout : s.Layout chain aside) {c : Cell K V} (mem : c ∈ chain) :
    ∃ newer older, s.node? c.slot = some (c.node newer older) := by
  obtain ⟨before, after, split⟩ := List.append_of_mem mem
  exact ⟨_, _, layout.chainNode split⟩

theorem chainNodup (layout : s.Layout chain aside) : (slotsOf chain).Nodup :=
  (List.nodup_append.mp (List.nodup_append.mp layout.nodup).1).1

theorem parted {before after : List (Cell K V)} {c : Cell K V}
    (layout : s.Layout (before ++ c :: after) aside) : Parted before c after := by
  have chained := layout.chainNodup
  rw [slotsOf, List.map_append, List.map_cons] at chained
  obtain ⟨upper, others, apart⟩ := List.nodup_append.mp chained
  obtain ⟨not_lower, lower⟩ := List.nodup_cons.mp others
  refine ⟨upper, lower, fun mem => ?_, not_lower, fun i mem also => ?_⟩
  · exact apart c.slot mem c.slot (by simp) rfl
  · exact apart i mem i (List.mem_cons_of_mem _ also) rfl

theorem chainApart {c : Cell K V} (layout : s.Layout chain (c :: aside)) : c.slot ∉ slotsOf chain := by
  obtain ⟨parted, _, _⟩ := List.nodup_append.mp layout.nodup
  obtain ⟨_, _, apart⟩ := List.nodup_append.mp parted
  exact fun mem => apart c.slot mem c.slot (by simp [slotsOf]) rfl

/- The cells aside that do not move and the free slots, under a change of no more than the chain
and the cells that do. -/
theorem keptRest {t : Slab K V} (moved : List (Cell K V)) {rest : List (Cell K V)}
    (layout : s.Layout chain (moved ++ rest))
    (kept : ∀ i ∉ slotsOf chain, i ∉ slotsOf moved → t.node? i = s.node? i) :
    (∀ d ∈ rest, t.node? d.slot = some (d.node none none)) ∧ ∀ i ∈ s.free, t.node? i = none := by
  have nodup := layout.nodup
  rw [slotsOf, slotsOf, List.map_append, List.append_assoc, List.append_assoc] at nodup
  obtain ⟨_, others, chain_apart⟩ := List.nodup_append.mp nodup
  obtain ⟨_, _, moved_apart⟩ := List.nodup_append.mp others
  have same : ∀ i ∈ slotsOf rest ++ s.free, t.node? i = s.node? i := by
    intro i mem
    refine kept i (fun chained => ?_) (fun moves => moved_apart i moves i mem rfl)
    exact chain_apart i chained i (List.mem_append_right _ mem) rfl
  constructor
  · intro d mem
    have slot : d.slot ∈ slotsOf rest := List.mem_map_of_mem mem
    exact (same _ (List.mem_append_left _ slot)).trans (layout.alone d (List.mem_append_right _ mem))
  · exact fun i mem => (same i (List.mem_append_right _ mem)).trans (layout.vacant i mem)

theorem empty : (empty : Slab K V).Layout [] [] where
  linked := trivial
  newest := rfl
  oldest := rfl
  alone := by simp
  vacant := by simp [Slab.empty]
  slots := by simp [slotsOf, Slab.empty]

theorem detach {before after : List (Cell K V)} {c : Cell K V}
    (layout : s.Layout (before ++ c :: after) aside) :
    (s.detach c.slot).Layout (before ++ after) (c :: aside) := by
  have held := layout.chainNode rfl
  have parted := layout.parted
  have ends := linkedAppend.mp layout.linked
  have tail : ∀ i ∉ slotsOf before, last before ≠ some i := fun i out at_i => out (lastMem at_i)
  have head : ∀ i ∉ slotsOf after, first after ≠ some i := fun i out at_i => out (firstMem at_i)
  let loose := s.unlinked c.slot
  let above := loose.setOlder (last before) (first after)
  have result : s.detach c.slot = above.setNewer (first after) (last before) := detachFound held
  have kept : ∀ i, i ≠ c.slot → loose.node? i = s.node? i :=
    fun i other => nodeUpdateOther s _ (Ne.symm other)
  have frame : ∀ i ∉ slotsOf (before ++ c :: after), (s.detach c.slot).node? i = s.node? i := by
    intro i out
    simp only [slotsOf, List.map_append, List.map_cons, List.mem_append, List.mem_cons, not_or] at out
    obtain ⟨out_before, other, out_after⟩ := out
    rw [result, nodeSetNewer _ _ _ (head i out_after), nodeSetOlder _ _ _ (tail i out_before)]
    exact kept i other
  -- The two halves of the chain keep their links, but for those that named the cell.
  have upper : (s.detach c.slot).Linked none before (first after) := by
    have loosened : loose.Linked none before (some c.slot) :=
      linkedFrame ends.1 (fun i mem => kept i (ne_of_mem_of_not_mem mem parted.not_upper))
    rw [result]
    refine linkedFrame (linkedSetOlder loosened parted.upper (first after)) ?_
    exact fun i mem => nodeSetNewer _ _ _ (head i (parted.apart i mem))
  have lower : (s.detach c.slot).Linked (last before) after none := by
    have loosened : above.Linked (some c.slot) after none := by
      refine linkedFrame ends.2.2 (fun i mem => ?_)
      rw [nodeSetOlder _ _ _ (tail i (fun also => parted.apart i also mem))]
      exact kept i (ne_of_mem_of_not_mem mem parted.not_lower)
    rw [result]
    exact linkedSetNewer loosened parted.lower (last before)
  have size : (s.detach c.slot).slots.size = s.slots.size := detachSize s c.slot
  have free : (s.detach c.slot).free = s.free := by
    rw [result, setNewerFree, setOlderFree]; rfl
  obtain ⟨alone, vacant⟩ := keptRest [] layout (fun i out _ => frame i out)
  refine ⟨linkedAppend.mpr ⟨by simpa using upper, by simpa using lower⟩, ?_, ?_, ?_, ?_, ?_⟩
  · rw [result, setNewerNewest, setOlderNewest]
    have newest : loose.newest = first (before ++ c :: after) := layout.newest
    rw [newest, firstAppend, firstAppend]
    cases before <;> simp [last, first, List.getLast?_cons]
  · rw [result, setNewerOldest, setOlderOldest]
    have oldest : loose.oldest = last (before ++ c :: after) := layout.oldest
    rw [oldest, lastAppend, lastAppend, lastCons]
    cases after <;> simp [last, first, List.getLast?_cons]
  · intro d mem
    rcases List.mem_cons.mp mem with rfl | mem
    · rw [result, nodeSetNewer _ _ _ (head _ parted.not_lower),
        nodeSetOlder _ _ _ (tail _ parted.not_upper)]
      simp only [loose, unlinked, nodeUpdateSame, held]
      rfl
    · exact alone d mem
  · rwa [free]
  · rw [size, free]
    refine List.Perm.trans ?_ layout.slots
    simpa [slotsOf] using slotMoved (slotsOf before) (slotsOf after) (slotsOf aside ++ s.free) c.slot

theorem pushNewest {c : Cell K V} (layout : s.Layout chain (c :: aside)) :
    (s.pushNewest c.slot).Layout (c :: chain) aside := by
  have held := layout.alone c (by simp)
  have fresh := layout.chainApart
  have head : ∀ i ∉ slotsOf chain, s.newest ≠ some i :=
    fun i out at_i => out (firstMem (layout.newest.symm.trans at_i))
  let marked := s.update c.slot (fun n => { n with newer := none, older := s.newest })
  have result : s.pushNewest c.slot =
      { marked.setNewer s.newest (some c.slot) with newest := some c.slot } := by
    apply pushNewestTied
    · rw [layout.newest, layout.oldest]
      cases chain <;> simp [first, last]
    · rw [layout.newest, layout.oldest]
      cases chain <;> simp [first, last, List.getLast?_cons]
  have kept : ∀ i, i ≠ c.slot → marked.node? i = s.node? i :=
    fun i other => nodeUpdateOther s _ (Ne.symm other)
  have frame : ∀ i, i ≠ c.slot → i ∉ slotsOf chain → (s.pushNewest c.slot).node? i = s.node? i := by
    intro i other out
    rw [result]
    exact (nodeSetNewer _ _ _ (head i out)).trans (kept i other)
  have below : (s.pushNewest c.slot).Linked (some c.slot) chain none := by
    have unmarked : marked.Linked none chain none :=
      linkedFrame layout.linked (fun i mem => kept i (ne_of_mem_of_not_mem mem fresh))
    rw [result, layout.newest]
    exact linkedFrame (linkedSetNewer unmarked layout.chainNodup (some c.slot)) (fun _ _ => rfl)
  have top : (s.pushNewest c.slot).node? c.slot = some (c.node none (first chain)) := by
    rw [result]
    refine (nodeSetNewer _ _ _ (head _ fresh)).trans ?_
    simp only [marked, nodeUpdateSame, held, layout.newest]
    rfl
  have size : (s.pushNewest c.slot).slots.size = s.slots.size := pushNewestSize s c.slot
  have free : (s.pushNewest c.slot).free = s.free := by
    rw [result]
    exact setNewerFree marked s.newest (some c.slot)
  obtain ⟨alone, vacant⟩ := keptRest [c] layout
    (fun i out other => frame i (List.ne_of_not_mem_cons other) out)
  refine ⟨⟨by simpa using top, below⟩, ?_, ?_, ?_, ?_, ?_⟩
  · rw [result]; rfl
  · rw [result]
    refine (setNewerOldest _ _ _).trans ?_
    have oldest : marked.oldest = last chain := layout.oldest
    rw [oldest, layout.newest, lastCons]
    cases chain <;> simp [first, last, List.getLast?_cons]
  · exact alone
  · rwa [free]
  · rw [size, free]
    refine List.Perm.trans ?_ layout.slots
    simpa [slotsOf] using (slotMoved [] (slotsOf chain) (slotsOf aside ++ s.free) c.slot).symm

theorem occupy (layout : s.Layout chain aside) (key : K) (value : V) (pinned : Bool) :
    (s.occupy { key, value, pinned }).2.Layout chain
      (⟨(s.occupy { key, value, pinned }).1, key, value, pinned⟩ :: aside) := by
  have bound := layout.slotInside
  obtain ⟨_, free_nodup, apart⟩ := List.nodup_append.mp layout.nodup
  unfold Slab.occupy
  cases free : s.free with
  | nil =>
    have kept : ∀ i < s.slots.size, Slab.node? { s with
        slots := s.slots.push (some { key, value, pinned }), free := [] } i = s.node? i := by
      intro i lt
      simp [node?, Array.getElem?_push, Nat.ne_of_lt lt]
    refine ⟨linkedFrame layout.linked ?_, layout.newest, layout.oldest, ?_, by simp, ?_⟩
    · exact fun i mem => by simpa [free] using kept i (bound i (by simp [mem]))
    · intro d mem
      rcases List.mem_cons.mp mem with rfl | mem
      · simp [node?, Cell.node]
      · have slot : d.slot ∈ slotsOf aside := List.mem_map_of_mem mem
        simpa [free] using (kept _ (bound _ (by simp [slot]))).trans (layout.alone d mem)
    · have before := layout.slots
      rw [free, List.append_nil] at before
      simp only [slotsOf, List.map_cons, List.append_nil, Array.size_push, List.range_succ]
      exact List.perm_middle.trans ((before.cons _).trans (List.perm_append_singleton _ _).symm)
  | cons i rest =>
    have lt : i < s.slots.size := bound i (by simp [free])
    have kept : ∀ j, j ≠ i → Slab.node? { s with
        slots := s.slots.setIfInBounds i (some { key, value, pinned }), free := rest } j = s.node? j := by
      intro j other
      simp [node?, Ne.symm other]
    rw [free] at free_nodup apart
    have taken : ∀ j ∈ slotsOf chain ++ slotsOf aside, j ≠ i := fun j mem => apart j mem i (by simp)
    refine ⟨linkedFrame layout.linked ?_, layout.newest, layout.oldest, ?_, ?_, ?_⟩
    · exact fun j mem => kept j (taken j (List.mem_append_left _ mem))
    · intro d mem
      rcases List.mem_cons.mp mem with rfl | mem
      · simp [node?, Cell.node, lt]
      · have slot : d.slot ∈ slotsOf aside := List.mem_map_of_mem mem
        exact (kept _ (taken _ (List.mem_append_right _ slot))).trans (layout.alone d mem)
    · intro j mem
      have left : j ∈ s.free := free ▸ List.mem_cons_of_mem i mem
      have other : j ≠ i := ne_of_mem_of_not_mem mem (List.nodup_cons.mp free_nodup).1
      exact (kept j other).trans (layout.vacant j left)
    · have before := layout.slots
      rw [free] at before
      refine List.Perm.trans ?_ (by simpa using before)
      simpa [slotsOf] using (slotMoved (slotsOf chain) (slotsOf aside) rest i).symm

theorem vacate {c : Cell K V} (layout : s.Layout chain (c :: aside)) :
    (s.vacate c.slot).Layout chain aside := by
  have kept : ∀ i, i ≠ c.slot → (s.vacate c.slot).node? i = s.node? i := by
    intro i other
    simp [node?, Slab.vacate, Ne.symm other]
  obtain ⟨alone, vacant⟩ := keptRest [c] layout
    (fun i _ other => kept i (List.ne_of_not_mem_cons other))
  refine ⟨linkedFrame layout.linked ?_, layout.newest, layout.oldest, alone, ?_, ?_⟩
  · exact fun i mem => kept i (ne_of_mem_of_not_mem mem layout.chainApart)
  · intro i mem
    rcases List.mem_cons.mp mem with rfl | mem
    · simp only [node?, Slab.vacate, Array.getElem?_setIfInBounds, if_true]
      split <;> rfl
    · exact vacant i mem
  · rw [vacateSize]
    refine List.Perm.trans ?_ layout.slots
    simpa [slotsOf, Slab.vacate] using slotMoved (slotsOf chain) (slotsOf aside) s.free c.slot

theorem repin {c : Cell K V} (layout : s.Layout chain (c :: aside)) (pinned : Bool) :
    (s.update c.slot (fun n => { n with pinned := pinned })).Layout chain
      ({ c with pinned := pinned } :: aside) := by
  have kept : ∀ i, i ≠ c.slot →
      (s.update c.slot (fun n => { n with pinned := pinned })).node? i = s.node? i :=
    fun i other => nodeUpdateOther s _ (Ne.symm other)
  obtain ⟨alone, vacant⟩ := keptRest [c] layout
    (fun i _ other => kept i (List.ne_of_not_mem_cons other))
  refine ⟨linkedFrame layout.linked ?_, layout.newest, layout.oldest, ?_, vacant, ?_⟩
  · exact fun i mem => kept i (ne_of_mem_of_not_mem mem layout.chainApart)
  · intro d mem
    rcases List.mem_cons.mp mem with rfl | mem
    · simp [nodeUpdateSame, layout.alone c (by simp), Cell.node]
    · exact alone d mem
  · rw [updateSize]
    exact layout.slots

theorem refresh {before after : List (Cell K V)} {c : Cell K V}
    (layout : s.Layout (before ++ c :: after) aside) (unpinned : c.pinned = false) :
    (s.refresh c.slot).Layout (c :: (before ++ after)) aside := by
  unfold Slab.refresh
  have loose : s.isPinned c.slot = false := by
    simp [isPinned, layout.chainNode rfl, Cell.node, unpinned]
  by_cases top : s.newest = some c.slot
  · rw [if_pos (by simp [top])]
    cases before with
    | nil => exact layout
    | cons d rest =>
      have slot : d.slot = c.slot := Option.some.inj (layout.newest.symm.trans top)
      exact absurd (by simp [slotsOf, slot]) layout.parted.not_upper
  · rw [if_neg (by simp [top, loose])]
    exact layout.detach.pushNewest

theorem refreshAside {c : Cell K V} (layout : s.Layout chain aside) (mem : c ∈ aside)
    (pinned : c.pinned = true) : s.refresh c.slot = s := by
  have held : s.isPinned c.slot = true := by simp [isPinned, layout.alone c mem, Cell.node, pinned]
  simp [Slab.refresh, held]

end Layout

def Cell.revalued (i : Nat) (v : V) (c : Cell K V) : Cell K V :=
  if c.slot = i then { c with value := v } else c

theorem revaluedSlot (i : Nat) (v : V) (c : Cell K V) : (c.revalued i v).slot = c.slot := by
  unfold Cell.revalued
  split <;> rfl

theorem revaluedSlots (i : Nat) (v : V) (cells : List (Cell K V)) :
    slotsOf (cells.map (Cell.revalued i v)) = slotsOf cells := by
  simp [slotsOf, revaluedSlot]

theorem revaluedNode {s : Slab K V} {c : Cell K V} {newer older : Option Nat}
    (held : s.node? c.slot = some (c.node newer older)) (i : Nat) (v : V) :
    (s.update i (fun n => { n with value := v })).node? (c.revalued i v).slot =
      some ((c.revalued i v).node newer older) := by
  rw [revaluedSlot]
  by_cases at_i : c.slot = i
  · subst at_i
    simp [nodeUpdateSame, held, Cell.revalued, Cell.node]
  · rw [nodeUpdateOther s _ (Ne.symm at_i), held]
    simp [Cell.revalued, at_i]

theorem linkedRevalued {s : Slab K V} {cells : List (Cell K V)} {newer older : Option Nat}
    (linked : s.Linked newer cells older) (i : Nat) (v : V) :
    (s.update i (fun n => { n with value := v })).Linked newer (cells.map (Cell.revalued i v)) older := by
  induction cells generalizing newer with
  | nil => trivial
  | cons c rest ih =>
    have head : first (rest.map (Cell.revalued i v)) = first rest := by
      cases rest <;> simp [first, revaluedSlot]
    refine ⟨?_, ?_⟩
    · rw [head]
      exact revaluedNode linked.1 i v
    · rw [revaluedSlot]
      exact ih linked.2

theorem Layout.revalue {s : Slab K V} {chain aside : List (Cell K V)} (layout : s.Layout chain aside)
    (i : Nat) (v : V) :
    (s.update i (fun n => { n with value := v })).Layout (chain.map (Cell.revalued i v))
      (aside.map (Cell.revalued i v)) := by
  refine ⟨linkedRevalued layout.linked i v, ?_, ?_, ?_, ?_, ?_⟩
  · refine layout.newest.trans ?_
    cases chain <;> simp [first, revaluedSlot]
  · refine layout.oldest.trans ?_
    simp [last, List.getLast?_map, Function.comp_def, revaluedSlot]
  · intro d mem
    obtain ⟨c, held, rfl⟩ := List.mem_map.mp mem
    exact revaluedNode (layout.alone c held) i v
  · intro j mem
    by_cases at_i : i = j
    · subst at_i
      rw [nodeUpdateSame, layout.vacant i mem]
      rfl
    · rw [nodeUpdateOther s _ at_i]
      exact layout.vacant j mem
  · rw [revaluedSlots, revaluedSlots, updateSize]
    exact layout.slots

theorem heldEntries {s : Slab K V} {cells : List (Cell K V)} (keep : Bool → Bool)
    (held : ∀ c ∈ cells, ∃ newer older, s.node? c.slot = some (c.node newer older)) :
    (((slotsOf cells).filterMap s.node?).filter (fun n => keep n.pinned)).map
      (fun n => (n.key, n.value)) = (cells.filter (fun c => keep c.pinned)).map Cell.entry := by
  induction cells with
  | nil => rfl
  | cons c rest ih =>
    obtain ⟨newer, older, found⟩ := held c (by simp)
    have others := ih (fun d mem => held d (by simp [mem]))
    have node : (c.node newer older).pinned = c.pinned := rfl
    simp only [slotsOf, List.map_cons] at others ⊢
    rw [List.filterMap_cons_some found, List.filter_cons, List.filter_cons, node]
    split
    · rw [List.map_cons, List.map_cons, others]
      rfl
    · exact others

theorem slotNodes (s : Slab K V) :
    s.slots.toList.filterMap id = (List.range s.slots.size).filterMap s.node? := by
  have slots : s.slots.toList = (List.range s.slots.size).map (fun i => s.node? i) := by
    apply List.ext_getElem
    · simp
    · intro i lt _
      simp [node?, show i < s.slots.size by simpa using lt]
  rw [slots, List.filterMap_map]
  rfl

namespace Layout
variable {s : Slab K V} {chain aside : List (Cell K V)}

theorem chained (layout : s.Layout chain aside) : s.chained = chain.map Cell.entry := by
  have entries := heldEntries (fun _ => true) (fun c mem => layout.chainHeld mem)
  rw [List.filter_eq_self.mpr (by simp), List.filter_eq_self.mpr (by simp)] at entries
  unfold Slab.chained
  rw [layout.walked, entries]

theorem pinnedPerm (layout : s.Layout chain aside) (unpinned : ∀ c ∈ chain, c.pinned = false)
    (pinned : ∀ c ∈ aside, c.pinned = true) : s.pinned.Perm (aside.map Cell.entry) := by
  have vacant : s.free.filterMap s.node? = [] := List.filterMap_eq_nil_iff.mpr layout.vacant
  have none : chain.filter (fun c => id c.pinned) = [] :=
    List.filter_eq_nil_iff.mpr (by simpa using unpinned)
  have all : aside.filter (fun c => id c.pinned) = aside := List.filter_eq_self.mpr pinned
  have chained := heldEntries id (fun c mem => layout.chainHeld mem)
  have alone := heldEntries id (fun c mem => ⟨_, _, layout.alone c mem⟩)
  have nodes := ((layout.slots.filterMap s.node?).filter (fun n => id n.pinned)).map
    (fun n => (n.key, n.value))
  rw [List.filterMap_append, List.filterMap_append, vacant, List.append_nil, List.filter_append,
    List.map_append, chained, none, alone, all, List.map_nil, List.nil_append] at nodes
  unfold Slab.pinned
  rw [slotNodes]
  exact nodes.symm

end Layout
end TieredCache.Slab
