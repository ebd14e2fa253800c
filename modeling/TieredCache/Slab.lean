/-! Nodes in numbered slots, the unpinned ones linked into one chain from newest to oldest.
A vacated slot goes on a stack of free ones and is the next to be occupied. Links are slot
numbers: every access is checked, and one that misses leaves the slab as it was. That it
never misses is a matter of the invariant and is not stated here. -/
namespace TieredCache

structure Node (K V : Type) where
  key : K
  value : V
  pinned : Bool
  newer : Option Nat := none
  older : Option Nat := none
  deriving DecidableEq, Repr

structure Slab (K V : Type) where
  slots : Array (Option (Node K V))
  newest : Option Nat
  oldest : Option Nat
  free : List Nat
  deriving DecidableEq, Repr

namespace Slab
variable {K V : Type}

def empty : Slab K V := ⟨#[], none, none, []⟩

def node? (s : Slab K V) (i : Nat) : Option (Node K V) := s.slots[i]?.join

def update (s : Slab K V) (i : Nat) (f : Node K V → Node K V) : Slab K V :=
  { s with slots := s.slots.modify i (Option.map f) }

def pushNewest (s : Slab K V) (i : Nat) : Slab K V :=
  let linked := s.update i (fun n => { n with newer := none, older := s.newest })
  let linked := match s.newest with
    | some j => linked.update j (fun n => { n with newer := some i })
    | none => linked
  { linked with newest := some i, oldest := s.oldest <|> some i }

def detach (s : Slab K V) (i : Nat) : Slab K V :=
  match s.node? i with
  | none => s
  | some node =>
      let cleared := s.update i (fun n => { n with newer := none, older := none })
      let above := match node.newer with
        | some j => cleared.update j (fun n => { n with older := node.older })
        | none => { cleared with newest := node.older }
      match node.older with
      | some j => above.update j (fun n => { n with newer := node.newer })
      | none => { above with oldest := node.newer }

def isPinned (s : Slab K V) (i : Nat) : Bool := (s.node? i).any Node.pinned

/- Moves a node of the chain to its newest end. A pinned node has no place in the chain. -/
def refresh (s : Slab K V) (i : Nat) : Slab K V :=
  if s.newest = some i || s.isPinned i then s else (s.detach i).pushNewest i

def occupy (s : Slab K V) (n : Node K V) : Nat × Slab K V :=
  match s.free with
  | i :: free => (i, { s with slots := s.slots.setIfInBounds i (some n), free })
  | [] => (s.slots.size, { s with slots := s.slots.push (some n) })

def vacate (s : Slab K V) (i : Nat) : Slab K V :=
  { s with slots := s.slots.setIfInBounds i none, free := i :: s.free }

def walk (s : Slab K V) : Nat → Option Nat → List Nat
  | steps + 1, some i =>
      match s.node? i with
      | some n => i :: s.walk steps n.older
      | none => []
  | _, _ => []

def chain (s : Slab K V) : List Nat := s.walk s.slots.size s.newest

def chained (s : Slab K V) : List (K × V) :=
  (s.chain.filterMap s.node?).map (fun n => (n.key, n.value))

def pinned (s : Slab K V) : List (K × V) :=
  ((s.slots.toList.filterMap id).filter Node.pinned).map (fun n => (n.key, n.value))

theorem nodeUpdateSame (s : Slab K V) (i : Nat) (f : Node K V → Node K V) :
    (s.update i f).node? i = (s.node? i).map f := by
  simp only [node?, update, Array.getElem?_modify]
  cases s.slots[i]? with
  | none => rfl
  | some slot => cases slot <;> simp

theorem nodeUpdateOther (s : Slab K V) {i j : Nat} (f : Node K V → Node K V) (other : i ≠ j) :
    (s.update i f).node? j = s.node? j := by
  simp [node?, update, Array.getElem?_modify, other]

theorem updateSize (s : Slab K V) (i : Nat) (f : Node K V → Node K V) :
    (s.update i f).slots.size = s.slots.size := by
  simp [update]

theorem pushNewestSize (s : Slab K V) (i : Nat) : (s.pushNewest i).slots.size = s.slots.size := by
  unfold pushNewest
  cases s.newest <;> simp [updateSize]

theorem detachSize (s : Slab K V) (i : Nat) : (s.detach i).slots.size = s.slots.size := by
  unfold detach
  cases s.node? i with
  | none => rfl
  | some node =>
    cases newer : node.newer <;> cases older : node.older <;> simp [newer, older, updateSize]

theorem refreshSize (s : Slab K V) (i : Nat) : (s.refresh i).slots.size = s.slots.size := by
  unfold refresh
  split
  · rfl
  · rw [pushNewestSize, detachSize]

theorem vacateSize (s : Slab K V) (i : Nat) : (s.vacate i).slots.size = s.slots.size := by
  simp [vacate]

theorem occupyFree (s : Slab K V) (n : Node K V) (some_free : s.free ≠ []) :
    (s.occupy n).2.slots.size = s.slots.size := by
  unfold occupy
  cases free : s.free with
  | nil => exact absurd free some_free
  | cons i rest => simp

theorem occupyFull (s : Slab K V) (n : Node K V) (none_free : s.free = []) :
    s.occupy n = (s.slots.size, { s with slots := s.slots.push (some n) }) := by
  simp [occupy, none_free]

end Slab
end TieredCache
