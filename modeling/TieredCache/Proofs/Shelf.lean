import Mathlib.Data.List.Nodup
import TieredCache.Proofs.Keyed
import TieredCache.Proofs.Layout
import TieredCache.Recency

/-! The primary tier as two plain lists: the unpinned entries, most recent first, and the pinned
ones in no order. The tier shows a shelf when its slab is laid out by cells that carry the entries
of the two lists and its index leads from each key to the slot of its cell. -/
namespace TieredCache
open Keyed (Apart find without)

structure Shelf (K V : Type) where
  recent : List (K × V)
  pinned : List (K × V)
  capacity : Option Nat
  byUse : Bool
  deriving DecidableEq, Repr

namespace Shelf
variable {K V : Type}

def entries (s : Shelf K V) : List (K × V) := s.recent ++ s.pinned

def surplus (s : Shelf K V) : List (K × V) :=
  match s.capacity with
  | some most => (s.recent.drop most).reverse
  | none => []

def fitted (s : Shelf K V) : Shelf K V :=
  match s.capacity with
  | some most => { s with recent := s.recent.take most }
  | none => s

theorem fitsSurplus {s : Shelf K V} (fits : ∀ most, s.capacity = some most → s.recent.length ≤ most) :
    s.fitted = s ∧ s.surplus = [] := by
  unfold fitted surplus
  split
  · rename_i most capped
    have short := fits most capped
    rw [List.take_of_length_le short, List.drop_of_length_le short]
    exact ⟨rfl, rfl⟩
  · exact ⟨rfl, rfl⟩

/- The surplus is what leaves while the list is too long, each time its last entry. -/
theorem surplusStep {s : Shelf K V} {front : List (K × V)} {e : K × V} {most : Nat}
    (capped : s.capacity = some most) (split : s.recent = front ++ [e]) (long : most < s.recent.length) :
    s.surplus = e :: surplus { s with recent := front } ∧ s.fitted = fitted { s with recent := front } := by
  have inside : most ≤ front.length := by
    rw [split, List.length_append, List.length_singleton] at long
    omega
  unfold surplus fitted
  rw [capped]
  dsimp only
  rw [split, List.drop_append_of_le_length inside, List.take_append_of_le_length inside, List.reverse_append]
  exact ⟨rfl, rfl⟩

theorem surplusMem (s : Shelf K V) {e : K × V} (mem : e ∈ s.surplus) : e ∈ s.recent := by
  unfold Shelf.surplus at mem
  split at mem
  · exact List.mem_of_mem_drop (List.mem_reverse.mp mem)
  · simp at mem

theorem fittedMem (s : Shelf K V) :
    s.fitted.pinned = s.pinned ∧ ∀ e ∈ s.fitted.recent, e ∈ s.recent := by
  unfold Shelf.fitted
  split
  · exact ⟨rfl, fun e mem => List.mem_of_mem_take mem⟩
  · exact ⟨rfl, fun e mem => mem⟩

theorem entriesMem {s : Shelf K V} {e : K × V} : e ∈ s.entries ↔ e ∈ s.recent ∨ e ∈ s.pinned :=
  List.mem_append

theorem fittedEntries (s : Shelf K V) : (s.fitted.entries ++ s.surplus).Perm s.entries := by
  unfold fitted surplus entries
  split
  · rename_i most _
    have dropped := (List.reverse_perm (s.recent.drop most)).append_left (s.recent.take most)
    rw [List.take_append_drop] at dropped
    rw [List.append_assoc]
    refine (List.perm_append_comm.append_left _).trans ?_
    rw [← List.append_assoc]
    exact dropped.append_right _
  · simp

variable [BEq K]

def revalued (k : K) (v : V) (entries : List (K × V)) : List (K × V) :=
  entries.map (fun e => if e.1 == k then (e.1, v) else e)

def find? (s : Shelf K V) (k : K) : Option V :=
  ((find Prod.fst s.recent k).or (find Prod.fst s.pinned k)).map Prod.snd

def touch (s : Shelf K V) (k : K) : Shelf K V :=
  if s.byUse then
    { s with recent := (find Prod.fst s.recent k).toList ++ without Prod.fst s.recent k }
  else s

def replace (s : Shelf K V) (k : K) (v : V) : Shelf K V :=
  { s with recent := revalued k v s.recent, pinned := revalued k v s.pinned }

def enter (s : Shelf K V) (k : K) (v : V) (pinned : Bool) : Shelf K V :=
  if pinned then { s with pinned := (k, v) :: s.pinned } else { s with recent := (k, v) :: s.recent }

def remove (s : Shelf K V) (k : K) : Shelf K V :=
  { s with recent := without Prod.fst s.recent k, pinned := without Prod.fst s.pinned k }

def pin (s : Shelf K V) (k : K) : Shelf K V :=
  { s with recent := without Prod.fst s.recent k
           pinned := (find Prod.fst s.recent k).toList ++ s.pinned }

def unpin (s : Shelf K V) (k : K) : Shelf K V :=
  { s with recent := (find Prod.fst s.pinned k).toList ++ s.recent
           pinned := without Prod.fst s.pinned k }

omit [BEq K] in
theorem enterEntries (s : Shelf K V) (k : K) (v : V) (pinned : Bool) :
    (s.enter k v pinned).entries.Perm ((k, v) :: s.entries) := by
  unfold enter entries
  cases pinned with
  | true => exact List.perm_middle
  | false => exact List.Perm.refl _

theorem replaceEntries (s : Shelf K V) (k : K) (v : V) :
    (s.replace k v).entries = revalued k v s.entries := List.map_append.symm

theorem removeEntries (s : Shelf K V) (k : K) :
    (s.remove k).entries = without Prod.fst s.entries k := (Keyed.withoutAppend _ _ _ _).symm

theorem findEntries (s : Shelf K V) (k : K) : s.find? k = (find Prod.fst s.entries k).map Prod.snd := by
  rw [entries, Keyed.findAppend]
  rfl

theorem findAbsent {s : Shelf K V} {k : K} : s.find? k = none ↔
    find Prod.fst s.recent k = none ∧ find Prod.fst s.pinned k = none := by
  simp [find?]

theorem unpinAbsent (s : Shelf K V) {k : K} (absent : s.find? k = none) : s.unpin k = s := by
  obtain ⟨_, none⟩ := findAbsent.mp absent
  unfold unpin
  rw [none, Keyed.withoutNone (Keyed.findNone.mp none)]
  rfl

variable [EquivBEq K]

theorem touchEntries {s : Shelf K V} (apart : Apart Prod.fst s.recent) (k : K) :
    (s.touch k).entries.Perm s.entries := by
  unfold touch
  split
  · exact (Keyed.foundFirst apart k).append_right s.pinned
  · exact List.Perm.refl _

theorem pinEntries {s : Shelf K V} (apart : Apart Prod.fst s.recent) (k : K) :
    (s.pin k).entries.Perm s.entries := by
  have moved := (List.perm_append_comm.trans (Keyed.foundFirst apart k)).append_right s.pinned
  unfold pin entries
  rw [← List.append_assoc]
  exact moved

theorem unpinEntries {s : Shelf K V} (apart : Apart Prod.fst s.pinned) (k : K) :
    (s.unpin k).entries.Perm s.entries := by
  have moved := (Keyed.foundFirst apart k).append_left s.recent
  unfold unpin entries
  refine (List.perm_append_comm.append_right _).trans ?_
  rw [List.append_assoc]
  exact moved

end Shelf

namespace Recency
open Slab (Cell slotsOf)
variable {K V : Type} [BEq K]

structure Layout (r : Recency K V) (chain aside : List (Cell K V)) : Prop where
  slab : r.slab.Layout chain aside
  index : r.index.entries.Perm ((chain ++ aside).map (fun c => (c.key, c.slot)))
  apart : Apart Cell.key (chain ++ aside)
  unpinned : ∀ c ∈ chain, c.pinned = false
  pinned : ∀ c ∈ aside, c.pinned = true
  count : r.unpinned = chain.length

def shelf (r : Recency K V) (chain aside : List (Cell K V)) : Shelf K V :=
  ⟨chain.map Cell.entry, aside.map Cell.entry, r.capacity, r.byUse⟩

def Shows (r : Recency K V) (s : Shelf K V) : Prop :=
  ∃ chain aside, r.Layout chain aside ∧ r.shelf chain aside = s

/- A lookup by key sees through to the cells. -/
theorem cellFind (cells : List (Cell K V)) (k : K) :
    find Prod.fst (cells.map Cell.entry) k = (find Cell.key cells k).map Cell.entry :=
  Keyed.findMapped _ _ _ _

theorem cellWithout (cells : List (Cell K V)) (k : K) :
    without Prod.fst (cells.map Cell.entry) k = (without Cell.key cells k).map Cell.entry :=
  Keyed.withoutMapped _ _ _ _

theorem cellsOut {cells : List (Cell K V)} {k : K} (out : ∀ c ∈ cells, (c.key == k) = false) :
    find Prod.fst (cells.map Cell.entry) k = none ∧
    without Prod.fst (cells.map Cell.entry) k = cells.map Cell.entry := by
  rw [cellFind, cellWithout, Keyed.findNone.mpr out, Keyed.withoutNone out]
  exact ⟨rfl, rfl⟩

theorem cellsAround [EquivBEq K] {before after : List (Cell K V)} {c : Cell K V} {k : K}
    (apart : Apart Cell.key (before ++ c :: after)) (at_k : (c.key == k) = true) :
    find Prod.fst ((before ++ c :: after).map Cell.entry) k = some c.entry ∧
    without Prod.fst ((before ++ c :: after).map Cell.entry) k = (before ++ after).map Cell.entry := by
  rw [cellFind, cellWithout, Keyed.findAround apart at_k, Keyed.withoutAround apart at_k]
  exact ⟨rfl, rfl⟩

inductive Place (r : Recency K V) (chain aside : List (Cell K V)) (k : K) : Prop where
  | absent (index : r.index.find? k = none) (out_chain : ∀ c ∈ chain, (c.key == k) = false)
      (out_aside : ∀ c ∈ aside, (c.key == k) = false)
  | chained (before after : List (Cell K V)) (c : Cell K V) (split : chain = before ++ c :: after)
      (index : r.index.find? k = some c.slot) (at_k : (c.key == k) = true)
      (out : ∀ c ∈ aside, (c.key == k) = false)
  | alone (before after : List (Cell K V)) (c : Cell K V) (split : aside = before ++ c :: after)
      (index : r.index.find? k = some c.slot) (at_k : (c.key == k) = true)
      (out : ∀ c ∈ chain, (c.key == k) = false)

section perms
variable {E : Type} (before after rest : List E) (c : E)

theorem outOfChain : (c :: (before ++ after ++ rest)).Perm (before ++ c :: after ++ rest) :=
  List.perm_middle.symm.append_right rest

theorem outOfAside : (c :: (rest ++ (before ++ after))).Perm (rest ++ (before ++ c :: after)) :=
  List.perm_middle.symm.trans (List.perm_middle.symm.append_left rest)

end perms

namespace Layout
variable {r : Recency K V} {chain aside : List (Cell K V)}

theorem chainApart (layout : r.Layout chain aside) : Apart Cell.key chain :=
  Keyed.apartSublist layout.apart (List.sublist_append_left _ _)

theorem asideApart (layout : r.Layout chain aside) : Apart Cell.key aside :=
  Keyed.apartSublist layout.apart (List.sublist_append_right _ _)

theorem held (layout : r.Layout chain aside) {c : Cell K V} (mem : c ∈ chain ++ aside) :
    ∃ newer older, r.slab.node? c.slot = some (c.node newer older) := by
  rcases List.mem_append.mp mem with mem | mem
  · exact layout.slab.chainHeld mem
  · exact ⟨none, none, layout.slab.alone c mem⟩

theorem valueAt (layout : r.Layout chain aside) {c : Cell K V} (mem : c ∈ chain ++ aside) :
    (r.slab.node? c.slot).map Node.value = some c.value := by
  obtain ⟨newer, older, found⟩ := layout.held mem
  rw [found]
  rfl

theorem pinnedAt (layout : r.Layout chain aside) {c : Cell K V} (mem : c ∈ chain ++ aside) :
    r.slab.isPinned c.slot = c.pinned := by
  obtain ⟨newer, older, found⟩ := layout.held mem
  simp [Slab.isPinned, found, Cell.node]

theorem looseAt (layout : r.Layout chain aside) {c : Cell K V} (mem : c ∈ chain) :
    r.slab.isPinned c.slot = false :=
  (layout.pinnedAt (List.mem_append_left _ mem)).trans (layout.unpinned c mem)

theorem fixedAt (layout : r.Layout chain aside) {c : Cell K V} (mem : c ∈ aside) :
    r.slab.isPinned c.slot = true :=
  (layout.pinnedAt (List.mem_append_right _ mem)).trans (layout.pinned c mem)

variable [EquivBEq K]

theorem indexFind (layout : r.Layout chain aside) (k : K) :
    r.index.find? k = (find Cell.key (chain ++ aside) k).map Cell.slot := by
  have apart : Apart Prod.fst ((chain ++ aside).map (fun c => (c.key, c.slot))) :=
    (Keyed.apartMapped _ _ _).mpr layout.apart
  rw [Dict.findPermuted layout.index apart, Keyed.findMapped, Option.map_map]
  rfl

theorem indexCell (layout : r.Layout chain aside) {k : K} {i : Nat} (index : r.index.find? k = some i) :
    ∃ c ∈ chain ++ aside, (c.key == k) = true ∧ c.slot = i := by
  rw [layout.indexFind] at index
  obtain ⟨c, found, slot⟩ := Option.map_eq_some_iff.mp index
  exact ⟨c, (Keyed.findMem found).1, (Keyed.findMem found).2, slot⟩

theorem place (layout : r.Layout chain aside) (k : K) : r.Place chain aside k := by
  have index := layout.indexFind k
  cases found : find Cell.key (chain ++ aside) k with
  | none =>
    have out := Keyed.findNone.mp found
    exact .absent (by simpa [found] using index) (fun c mem => out c (by simp [mem]))
      (fun c mem => out c (by simp [mem]))
  | some c =>
    obtain ⟨mem, at_k⟩ := Keyed.findMem found
    have others := (Keyed.apartAppend.mp layout.apart).2.2
    rw [found] at index
    rcases List.mem_append.mp mem with mem | mem
    · obtain ⟨before, after, split⟩ := List.append_of_mem mem
      refine .chained before after c split index at_k (fun d also => ?_)
      rw [← BEq.congr_right at_k]
      exact Keyed.unequalSymm (others c mem d also)
    · obtain ⟨before, after, split⟩ := List.append_of_mem mem
      refine .alone before after c split index at_k (fun d also => ?_)
      rw [← BEq.congr_right at_k]
      exact others d also c mem

theorem sameCell (layout : r.Layout chain aside) {c d : Cell K V} {k : K}
    (c_mem : c ∈ chain ++ aside) (d_mem : d ∈ chain ++ aside) (at_k : (c.key == k) = true) :
    d.slot = c.slot ↔ (d.key == k) = true := by
  have nodup : ((chain ++ aside).map Cell.slot).Nodup := by
    have := (List.nodup_append.mp layout.slab.nodup).1
    simpa [slotsOf] using this
  constructor
  · intro same
    rw [List.inj_on_of_nodup_map nodup d_mem c_mem same]
    exact at_k
  · intro also
    have same := (Keyed.findOf layout.apart d_mem also).symm.trans (Keyed.findOf layout.apart c_mem at_k)
    rw [Option.some.inj same]

theorem moved (layout : r.Layout chain aside) {slab : Slab K V} {chain' aside' : List (Cell K V)}
    (slab_layout : slab.Layout chain' aside')
    (perm : ((chain' ++ aside').map (fun c => (c.key, c.slot))).Perm
      ((chain ++ aside).map (fun c => (c.key, c.slot))))
    (unpinned : ∀ c ∈ chain', c.pinned = false) (pinned : ∀ c ∈ aside', c.pinned = true) :
    Layout { r with slab := slab, unpinned := chain'.length } chain' aside' where
  slab := slab_layout
  index := layout.index.trans perm.symm
  apart := by
    have keys := (Keyed.apartMapped Prod.fst (fun c : Cell K V => (c.key, c.slot)) _).mpr layout.apart
    exact (Keyed.apartMapped Prod.fst _ _).mp ((Keyed.apartPerm perm).mpr keys)
  unpinned := unpinned
  pinned := pinned
  count := rfl

theorem touchChained {before after : List (Cell K V)} {c : Cell K V}
    (layout : r.Layout (before ++ c :: after) aside) (byUse : r.byUse = true) :
    Layout { r with slab := r.touched c.slot } (c :: (before ++ after)) aside := by
  have unpinned := layout.unpinned
  have count : (c :: (before ++ after)).length = r.unpinned := by
    rw [layout.count]
    simp
    omega
  have refreshed := layout.slab.refresh (unpinned c (by simp))
  have moved := layout.moved refreshed ((outOfChain before after aside c).map _)
    (fun d mem => unpinned d (List.perm_middle.mem_iff.mpr mem)) layout.pinned
  rw [count] at moved
  simpa [touched, byUse] using moved

omit [EquivBEq K] in
theorem touchAlone (layout : r.Layout chain aside) {c : Cell K V} (mem : c ∈ aside) :
    r.touched c.slot = r.slab := by
  unfold touched
  split
  · exact layout.slab.refreshAside mem (layout.pinned c mem)
  · rfl

theorem dropped (layout : r.Layout chain aside) {slab : Slab K V} {chain' aside' : List (Cell K V)}
    {c : Cell K V} {k : K} (slab_layout : slab.Layout chain' aside')
    (perm : (c :: (chain' ++ aside')).Perm (chain ++ aside)) (at_k : (c.key == k) = true)
    (chain_sub : chain'.Sublist chain) (aside_sub : aside'.Sublist aside) :
    Layout { r with index := r.index.erase k, slab := slab, unpinned := chain'.length }
      chain' aside' where
  slab := slab_layout
  index := by
    have apart : Apart Cell.key ([] ++ c :: (chain' ++ aside')) :=
      (Keyed.apartPerm perm).mpr layout.apart
    have erased := Keyed.withoutPerm Prod.fst (layout.index.trans (perm.map _).symm) k
    rw [Keyed.withoutMapped] at erased
    rw [Dict.eraseEntries]
    refine erased.trans ?_
    have rest := Keyed.withoutAround apart at_k
    simp only [List.nil_append] at rest
    rw [rest]
  apart := Keyed.apartSublist layout.apart (chain_sub.append aside_sub)
  unpinned := fun d mem => layout.unpinned d (chain_sub.subset mem)
  pinned := fun d mem => layout.pinned d (aside_sub.subset mem)
  count := rfl

end Layout
end Recency
end TieredCache
