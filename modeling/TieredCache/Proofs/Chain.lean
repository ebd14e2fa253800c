import TieredCache.Slab

/-! What a slab holds, read off its links. A chain of cells is linked when every node names its two
neighbours; the cells aside are in slots of their own and name none. Together with the free slots
they are all the slots there are, each once, so no access of an operation ever misses. -/
namespace TieredCache.Slab
variable {K V : Type}

structure Cell (K V : Type) where
  slot : Nat
  key : K
  value : V
  pinned : Bool

def Cell.entry (c : Cell K V) : K × V := (c.key, c.value)

def Cell.node (c : Cell K V) (newer older : Option Nat) : Node K V :=
  ⟨c.key, c.value, c.pinned, newer, older⟩

def slotsOf (cells : List (Cell K V)) : List Nat := cells.map Cell.slot

def first (cells : List (Cell K V)) : Option Nat := cells.head?.map Cell.slot

def last (cells : List (Cell K V)) : Option Nat := cells.getLast?.map Cell.slot

def Linked (s : Slab K V) : Option Nat → List (Cell K V) → Option Nat → Prop
  | _, [], _ => True
  | newer, c :: rest, older =>
      s.node? c.slot = some (c.node newer ((first rest).or older)) ∧ Linked s (some c.slot) rest older

theorem firstAppend (xs ys : List (Cell K V)) : first (xs ++ ys) = (first xs).or (first ys) := by
  cases xs <;> simp [first]

theorem lastAppend (xs ys : List (Cell K V)) : last (xs ++ ys) = (last ys).or (last xs) := by
  simp [last, List.getLast?_append, Option.map_or]

theorem lastCons (c : Cell K V) (cells : List (Cell K V)) :
    last (c :: cells) = (last cells).or (some c.slot) := lastAppend [c] cells

theorem firstMem {cells : List (Cell K V)} {i : Nat} (head : first cells = some i) :
    i ∈ slotsOf cells := by
  obtain ⟨c, found, rfl⟩ := Option.map_eq_some_iff.mp head
  exact List.mem_map_of_mem (List.mem_of_head? found)

theorem lastMem {cells : List (Cell K V)} {i : Nat} (tail : last cells = some i) :
    i ∈ slotsOf cells := by
  obtain ⟨c, found, rfl⟩ := Option.map_eq_some_iff.mp tail
  exact List.mem_map_of_mem (List.mem_of_getLast? found)

theorem linkedFrame {s t : Slab K V} {cells : List (Cell K V)} {newer older : Option Nat}
    (linked : s.Linked newer cells older) (same : ∀ i ∈ slotsOf cells, t.node? i = s.node? i) :
    t.Linked newer cells older := by
  induction cells generalizing newer with
  | nil => trivial
  | cons c rest ih =>
    refine ⟨(same c.slot (by simp [slotsOf])).trans linked.1, ih linked.2 ?_⟩
    intro i mem
    exact same i (List.mem_cons_of_mem _ mem)

theorem linkedAppend {s : Slab K V} {xs ys : List (Cell K V)} {newer older : Option Nat} :
    s.Linked newer (xs ++ ys) older ↔
      s.Linked newer xs ((first ys).or older) ∧ s.Linked ((last xs).or newer) ys older := by
  induction xs generalizing newer with
  | nil => simp [Linked, last]
  | cons c rest ih =>
    simp only [List.cons_append, Linked, ih, firstAppend, lastCons, Option.or_assoc, and_assoc,
      Option.some_or]

/- Both ends of a link are set alike: in the neighbour when there is one, at the end of the
chain when there is none. -/
def setOlder (s : Slab K V) (at? next : Option Nat) : Slab K V :=
  match at? with
  | some i => s.update i (fun n => { n with older := next })
  | none => { s with newest := next }

def setNewer (s : Slab K V) (at? next : Option Nat) : Slab K V :=
  match at? with
  | some i => s.update i (fun n => { n with newer := next })
  | none => { s with oldest := next }

def unlinked (s : Slab K V) (i : Nat) : Slab K V :=
  s.update i (fun n => { n with newer := none, older := none })

theorem detachFound {s : Slab K V} {i : Nat} {n : Node K V} (found : s.node? i = some n) :
    s.detach i = ((s.unlinked i).setOlder n.newer n.older).setNewer n.older n.newer := by
  obtain ⟨key, value, pinned, newer, older⟩ := n
  unfold detach
  rw [found]
  cases newer <;> cases older <;> rfl

theorem pushNewestTied {s : Slab K V} (tied : s.newest = none → s.oldest = none)
    (whole : s.newest ≠ none → s.oldest ≠ none) (i : Nat) :
    s.pushNewest i =
      { (s.update i (fun n => { n with newer := none, older := s.newest })).setNewer s.newest (some i) with
        newest := some i } := by
  unfold pushNewest setNewer
  cases newest : s.newest with
  | none => simp [tied newest, update]
  | some j =>
    obtain ⟨k, oldest⟩ := Option.ne_none_iff_exists'.mp (whole (by simp [newest]))
    simp [oldest, update]

section ends
variable (s : Slab K V) (at? next : Option Nat)

theorem nodeSetOlder {i : Nat} (other : at? ≠ some i) : (s.setOlder at? next).node? i = s.node? i := by
  unfold setOlder
  cases at? with
  | none => rfl
  | some j => exact nodeUpdateOther s _ (by simpa using other)

theorem nodeSetNewer {i : Nat} (other : at? ≠ some i) : (s.setNewer at? next).node? i = s.node? i := by
  unfold setNewer
  cases at? with
  | none => rfl
  | some j => exact nodeUpdateOther s _ (by simpa using other)

theorem setOlderNewest : (s.setOlder at? next).newest = if at? = none then next else s.newest := by
  cases at? <;> rfl

theorem setOlderOldest : (s.setOlder at? next).oldest = s.oldest := by cases at? <;> rfl

theorem setNewerNewest : (s.setNewer at? next).newest = s.newest := by cases at? <;> rfl

theorem setNewerOldest : (s.setNewer at? next).oldest = if at? = none then next else s.oldest := by
  cases at? <;> rfl

theorem setOlderFree : (s.setOlder at? next).free = s.free := by cases at? <;> rfl

theorem setNewerFree : (s.setNewer at? next).free = s.free := by cases at? <;> rfl

end ends

theorem linkedSetOlder {s : Slab K V} {cells : List (Cell K V)} {newer older : Option Nat}
    (linked : s.Linked newer cells older) (nodup : (slotsOf cells).Nodup) (next : Option Nat) :
    (s.setOlder (last cells) next).Linked newer cells next := by
  rcases List.eq_nil_or_concat cells with rfl | ⟨pre, c, rfl⟩
  · trivial
  · rw [List.concat_eq_append] at linked nodup ⊢
    obtain ⟨before, at_c⟩ := linkedAppend.mp linked
    have tail : last (pre ++ [c]) = some c.slot := by simp [last]
    have fresh : ∀ i ∈ slotsOf pre, some c.slot ≠ some i := by
      intro i mem same
      cases same
      simp only [slotsOf, List.map_append, List.map_cons, List.map_nil] at nodup
      exact (List.nodup_append.mp nodup).2.2 _ mem _ (by simp) rfl
    rw [tail]
    refine linkedAppend.mpr ⟨?_, ?_, trivial⟩
    · exact linkedFrame before (fun i mem => nodeSetOlder s _ next (fresh i mem))
    · simp only [setOlder, nodeUpdateSame, at_c.1]
      simp [Cell.node, first]

theorem linkedSetNewer {s : Slab K V} {cells : List (Cell K V)} {newer older : Option Nat}
    (linked : s.Linked newer cells older) (nodup : (slotsOf cells).Nodup) (next : Option Nat) :
    (s.setNewer (first cells) next).Linked next cells older := by
  cases cells with
  | nil => trivial
  | cons c rest =>
    have head : first (c :: rest) = some c.slot := rfl
    have fresh : ∀ i ∈ slotsOf rest, some c.slot ≠ some i := by
      intro i mem same
      cases same
      exact (List.nodup_cons.mp nodup).1 mem
    rw [head]
    refine ⟨?_, linkedFrame linked.2 (fun i mem => nodeSetNewer s _ next (fresh i mem))⟩
    simp only [setNewer, nodeUpdateSame, linked.1]
    simp [Cell.node]

theorem walkLinked {s : Slab K V} {cells : List (Cell K V)} {newer : Option Nat}
    (linked : s.Linked newer cells none) {steps : Nat} (enough : cells.length ≤ steps) :
    s.walk steps (first cells) = slotsOf cells := by
  induction cells generalizing newer steps with
  | nil => cases steps <;> rfl
  | cons c rest ih =>
    cases steps with
    | zero => simp at enough
    | succ steps =>
      have head : first (c :: rest) = some c.slot := rfl
      have next := ih linked.2 (by simpa using enough)
      rw [head]
      simp only [walk, linked.1, Cell.node, Option.or_none]
      rw [next]
      rfl

end TieredCache.Slab
