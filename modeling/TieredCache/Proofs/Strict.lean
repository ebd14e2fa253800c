import TieredCache.Proofs.ShelfRuns

/-! The primary tier with nothing taken for granted: an access to a slot that the slab has not, a count taken below
zero and an eviction that comes to nothing while the tier is over its capacity are faults. On a tier that is
laid out by cells no call is at fault, and each does what it does when missed accesses are passed over. -/
namespace TieredCache

inductive Fault where
  | outside (slot : Nat)
  | underflow
  | stuck
  deriving DecidableEq, Repr

theorem Fault.bindOk {A B : Type} {first : Except Fault A} {next : A → Except Fault B} {b : B}
    (done : first >>= next = .ok b) : ∃ a, first = .ok a ∧ next a = .ok b := by
  cases first with
  | error fault => cases done
  | ok a => exact ⟨a, rfl, done⟩

namespace Slab
variable {K V : Type}

def nodeStrict (s : Slab K V) (i : Nat) : Except Fault (Option (Node K V)) :=
  match s.slots[i]? with
  | some slot => .ok slot
  | none => .error (.outside i)

def updateStrict (s : Slab K V) (i : Nat) (f : Node K V → Node K V) : Except Fault (Slab K V) :=
  if i < s.slots.size then .ok (s.update i f) else .error (.outside i)

def pushNewestStrict (s : Slab K V) (i : Nat) : Except Fault (Slab K V) := do
  let linked ← s.updateStrict i (fun n => { n with newer := none, older := s.newest })
  let linked ← match s.newest with
    | some j => linked.updateStrict j (fun n => { n with newer := some i })
    | none => .ok linked
  return { linked with newest := some i, oldest := s.oldest <|> some i }

def detachStrict (s : Slab K V) (i : Nat) : Except Fault (Slab K V) := do
  match ← s.nodeStrict i with
  | none => return s
  | some node =>
      let cleared ← s.updateStrict i (fun n => { n with newer := none, older := none })
      let above ← match node.newer with
        | some j => cleared.updateStrict j (fun n => { n with older := node.older })
        | none => .ok { cleared with newest := node.older }
      match node.older with
      | some j => above.updateStrict j (fun n => { n with newer := node.newer })
      | none => return { above with oldest := node.newer }

def isPinnedStrict (s : Slab K V) (i : Nat) : Except Fault Bool := do
  return (← s.nodeStrict i).any Node.pinned

def refreshStrict (s : Slab K V) (i : Nat) : Except Fault (Slab K V) := do
  if s.newest = some i then return s
  if ← s.isPinnedStrict i then return s
  let loose ← s.detachStrict i
  loose.pushNewestStrict i

/- The slot is there before the node: it comes off the stack or is added to the slab. -/
def occupyStrict (s : Slab K V) (n : Node K V) : Except Fault (Nat × Slab K V) :=
  let taken : Nat × Slab K V := match s.free with
    | i :: free => (i, { s with free })
    | [] => (s.slots.size, { s with slots := s.slots.push none })
  if taken.1 < taken.2.slots.size then
    .ok (taken.1, { taken.2 with slots := taken.2.slots.setIfInBounds taken.1 (some n) })
  else .error (.outside taken.1)

def vacateStrict (s : Slab K V) (i : Nat) : Except Fault (Option (Node K V) × Slab K V) := do
  let slot ← s.nodeStrict i
  return (slot, s.vacate i)

section inside
variable {s : Slab K V} {i : Nat}

theorem nodeInside (inside : i < s.slots.size) : s.nodeStrict i = .ok (s.node? i) := by
  simp [nodeStrict, node?, inside]

theorem updateInside (inside : i < s.slots.size) (f : Node K V → Node K V) :
    s.updateStrict i f = .ok (s.update i f) := if_pos inside

theorem pinnedInside (inside : i < s.slots.size) : s.isPinnedStrict i = .ok (s.isPinned i) := by
  unfold isPinnedStrict
  rw [nodeInside inside]
  rfl

theorem vacateInside (inside : i < s.slots.size) : s.vacateStrict i = .ok (s.node? i, s.vacate i) := by
  unfold vacateStrict
  rw [nodeInside inside]
  rfl

theorem heldInside {n : Node K V} (held : s.node? i = some n) : i < s.slots.size := by
  by_contra outside
  simp [node?, outside] at held

end inside

/-- Every slot number that the slab keeps is that of a slot. -/
structure Inside (s : Slab K V) : Prop where
  newest : ∀ i, s.newest = some i → i < s.slots.size
  newer : ∀ i n j, s.node? i = some n → n.newer = some j → j < s.slots.size
  older : ∀ i n j, s.node? i = some n → n.older = some j → j < s.slots.size
  free : ∀ i ∈ s.free, i < s.slots.size

namespace Inside
variable {s : Slab K V} {i : Nat}

theorem pushed (inside : s.Inside) (lt : i < s.slots.size) : s.pushNewestStrict i = .ok (s.pushNewest i) := by
  unfold pushNewestStrict pushNewest
  rw [updateInside lt]
  cases newest : s.newest with
  | none => rfl
  | some j =>
    have next : j < (s.update i (fun n => { n with newer := none, older := some j })).slots.size := by
      rw [updateSize]
      exact inside.newest j newest
    show updateStrict _ j _ >>= _ = _
    rw [updateInside next]
    rfl

theorem detached (inside : s.Inside) (lt : i < s.slots.size) : s.detachStrict i = .ok (s.detach i) := by
  unfold detachStrict detach
  rw [nodeInside lt]
  cases held : s.node? i with
  | none => rfl
  | some n =>
    have newer_inside := inside.newer i n
    have older_inside := inside.older i n
    obtain ⟨key, value, pinned, newer, older⟩ := n
    show updateStrict _ i _ >>= _ = _
    rw [updateInside lt]
    cases newer with
    | none =>
      cases older with
      | none => rfl
      | some k =>
        exact updateInside (by simpa [updateSize] using older_inside k held rfl) _
    | some j =>
      show updateStrict _ j _ >>= _ = _
      rw [updateInside (by simpa [updateSize] using newer_inside j held rfl)]
      cases older with
      | none => rfl
      | some k =>
        exact updateInside (by simpa [updateSize] using older_inside k held rfl) _

theorem occupied (inside : s.Inside) (n : Node K V) : s.occupyStrict n = .ok (s.occupy n) := by
  unfold occupyStrict occupy
  cases free : s.free with
  | nil =>
    simp [Array.setIfInBounds, Array.set_push]
  | cons i rest => exact if_pos (inside.free i (by simp [free]))

/- A node that is not pinned is taken out of the chain before it is put first. -/
theorem refreshed (inside : s.Inside) (lt : i < s.slots.size)
    (loose : s.isPinned i = false → (s.detach i).Inside) : s.refreshStrict i = .ok (s.refresh i) := by
  unfold refreshStrict Slab.refresh
  by_cases top : s.newest = some i
  · simp only [top, if_true, decide_true, Bool.true_or]
    rfl
  · rw [if_neg top, pinnedInside lt]
    cases pinned : s.isPinned i with
    | true =>
      simp only [Bool.or_true, if_true]
      rfl
    | false =>
      simp only [top, decide_false, Bool.or_self, Bool.false_eq_true, if_false]
      show s.detachStrict i >>= _ = _
      rw [inside.detached lt]
      exact (loose pinned).pushed (by rwa [detachSize])

end Inside

namespace Layout
variable {s : Slab K V} {chain aside : List (Cell K V)}

theorem cellInside (layout : s.Layout chain aside) {c : Cell K V} (mem : c ∈ chain ++ aside) :
    c.slot < s.slots.size := by
  have slot : c.slot ∈ slotsOf chain ++ slotsOf aside := by
    rw [slotsOf, slotsOf, ← List.map_append]
    exact List.mem_map_of_mem mem
  exact layout.slotInside _ (List.mem_append_left _ slot)

/- A node is that of a cell, and the slots it names are those of its neighbours in the chain. -/
theorem nodeCell (layout : s.Layout chain aside) {i : Nat} {n : Node K V} (held : s.node? i = some n) :
    (∃ before c after, chain = before ++ c :: after ∧ c.slot = i ∧ n = c.node (last before) (first after)) ∨
    ∃ c ∈ aside, c.slot = i ∧ n = c.node none none := by
  have slot := layout.slots.mem_iff.mpr (List.mem_range.mpr (heldInside held))
  rcases List.mem_append.mp slot with cell | vacant
  · rcases List.mem_append.mp cell with chained | alone
    · obtain ⟨c, mem, rfl⟩ := List.mem_map.mp chained
      obtain ⟨before, after, split⟩ := List.append_of_mem mem
      refine .inl ⟨before, c, after, split, rfl, ?_⟩
      exact Option.some.inj (held.symm.trans (layout.chainNode split))
    · obtain ⟨c, mem, rfl⟩ := List.mem_map.mp alone
      exact .inr ⟨c, mem, rfl, Option.some.inj (held.symm.trans (layout.alone c mem))⟩
  · rw [layout.vacant i vacant] at held
    cases held

theorem inside (layout : s.Layout chain aside) : s.Inside where
  newest := by
    intro i at_i
    have mem := firstMem (layout.newest.symm.trans at_i)
    exact layout.slotInside i (List.mem_append_left _ (List.mem_append_left _ mem))
  newer := by
    intro i n j held newer
    rcases layout.nodeCell held with ⟨before, c, after, rfl, _, rfl⟩ | ⟨c, _, _, rfl⟩
    · obtain ⟨d, mem, rfl⟩ := List.mem_map.mp (lastMem (show last before = some j from newer))
      exact layout.cellInside (by simp [mem])
    · cases newer
  older := by
    intro i n j held older
    rcases layout.nodeCell held with ⟨before, c, after, rfl, _, rfl⟩ | ⟨c, _, _, rfl⟩
    · obtain ⟨d, mem, rfl⟩ := List.mem_map.mp (firstMem (show first after = some j from older))
      exact layout.cellInside (by simp [mem])
    · cases older
  free := fun i mem => layout.slotInside i (List.mem_append_right _ mem)

end Layout

end Slab

namespace Recency
open Keyed (Apart find without)
open Slab (Cell)
variable {K V : Type}

def predStrict : Nat → Except Fault Nat
  | 0 => .error .underflow
  | n + 1 => .ok n

def touchedStrict (r : Recency K V) (i : Nat) : Except Fault (Slab K V) :=
  if r.byUse then r.slab.refreshStrict i else .ok r.slab

def loosenStrict (r : Recency K V) (i : Nat) : Except Fault (Recency K V) := do
  let slab ← r.slab.detachStrict i
  let unpinned ← predStrict r.unpinned
  return { r with slab, unpinned }

def joinStrict (r : Recency K V) (i : Nat) : Except Fault (Recency K V) := do
  let slab ← r.slab.pushNewestStrict i
  return { r with slab, unpinned := r.unpinned + 1 }

variable [BEq K]

def peekStrict (r : Recency K V) (k : K) : Except Fault (Option V) :=
  match r.index.find? k with
  | none => .ok none
  | some i => do return (← r.slab.nodeStrict i).map Node.value

def getStrict (r : Recency K V) (k : K) : Except Fault (Option V × Recency K V) :=
  match r.index.find? k with
  | none => .ok (none, r)
  | some i => do
      let slab ← r.touchedStrict i
      let slot ← slab.nodeStrict i
      return (slot.map Node.value, { r with slab })

def insertStrict (r : Recency K V) (k : K) (v : V) (pinned : Bool) : Except Fault (Option V × Recency K V) :=
  match r.index.find? k with
  | some i => do
      let slot ← r.slab.nodeStrict i
      let slab ← r.slab.updateStrict i (fun n => { n with value := v })
      let slab ← touchedStrict { r with slab } i
      return (slot.map Node.value, { r with slab })
  | none => do
      let taken ← r.slab.occupyStrict { key := k, value := v, pinned := pinned }
      let entered : Recency K V := { r with slab := taken.2 }
      let placed ← if pinned then .ok entered else entered.joinStrict taken.1
      return (none, { placed with index := r.index.insert k taken.1 })

def removeStrict (r : Recency K V) (k : K) : Except Fault (Option V × Recency K V) :=
  match r.index.find? k with
  | none => .ok (none, r)
  | some i => do
      let pinned ← r.slab.isPinnedStrict i
      let loose ← if pinned then .ok r else r.loosenStrict i
      let taken ← loose.slab.vacateStrict i
      return (taken.1.map Node.value, { loose with index := r.index.erase k, slab := taken.2 })

def setPinnedStrict (r : Recency K V) (k : K) (pinned : Bool) : Except Fault (Bool × Recency K V) :=
  match r.index.find? k with
  | none => .ok (false, r)
  | some i => do
      let already ← r.slab.isPinnedStrict i
      if already = pinned then return (true, r)
      let loose ← if pinned then r.loosenStrict i else .ok r
      let slab ← loose.slab.updateStrict i (fun n => { n with pinned := pinned })
      let marked : Recency K V := { loose with slab }
      let placed ← if pinned then .ok marked else marked.joinStrict i
      return (true, placed)

/- A slot that is empty after all gives no entry, and by then its number is among the free ones. -/
def evictOldestStrict (r : Recency K V) : Except Fault (Option (K × V) × Recency K V) :=
  match r.slab.oldest with
  | none => .ok (none, r)
  | some i => do
      let loose ← r.loosenStrict i
      let taken ← loose.slab.vacateStrict i
      let left : Recency K V := { loose with slab := taken.2 }
      match taken.1 with
      | none => return (none, left)
      | some n => return (some (n.key, n.value), { left with index := r.index.erase n.key })

omit [BEq K] in
theorem loosenFewer {r loose : Recency K V} {i : Nat} (loosened : r.loosenStrict i = .ok loose) :
    loose.unpinned + 1 = r.unpinned := by
  obtain ⟨slab, _, counted⟩ := Fault.bindOk loosened
  obtain ⟨unpinned, fewer, same⟩ := Fault.bindOk counted
  cases same
  cases count : r.unpinned with
  | zero => rw [count] at fewer; cases fewer
  | succ n => rw [count] at fewer; cases fewer; rfl

theorem evictFewer {r next : Recency K V} {e : K × V} (evicted : r.evictOldestStrict = .ok (some e, next)) :
    next.unpinned + 1 = r.unpinned := by
  unfold evictOldestStrict at evicted
  cases oldest : r.slab.oldest with
  | none => rw [oldest] at evicted; cases evicted
  | some i =>
    rw [oldest] at evicted
    obtain ⟨loose, loosened, vacated⟩ := Fault.bindOk evicted
    obtain ⟨taken, _, last⟩ := Fault.bindOk vacated
    obtain ⟨slot, slab⟩ := taken
    cases slot with
    | none => cases last
    | some n =>
      cases last
      have fewer := loosenFewer loosened
      exact fewer

/- Evicts as long as the tier is over its capacity, however long that takes. -/
def shedStrict (r : Recency K V) : Except Fault (List (K × V) × Recency K V) :=
  if r.overCapacity then
    match _ : r.evictOldestStrict with
    | .error fault => .error fault
    | .ok (none, _) => .error .stuck
    | .ok (some e, next) => do
        let others ← next.shedStrict
        return (e :: others.1, others.2)
  else .ok ([], r)
termination_by r.unpinned
decreasing_by
  have := evictFewer ‹_›
  omega

def stepStrict (r : Recency K V) : Call K V → Except Fault (Reply K V × Recency K V)
  | .insert k v pinned => do let inserted ← r.insertStrict k v pinned; return (.value inserted.1, inserted.2)
  | .get k => do let got ← r.getStrict k; return (.value got.1, got.2)
  | .peek k => do return (.value (← r.peekStrict k), r)
  | .remove k => do let removed ← r.removeStrict k; return (.value removed.1, removed.2)
  | .setPinned k pinned => do let set ← r.setPinnedStrict k pinned; return (.flag set.1, set.2)
  | .evictOldest => do let evicted ← r.evictOldestStrict; return (.evicted evicted.1, evicted.2)
  | .shed => do let shed ← r.shedStrict; return (.shed shed.1, shed.2)
  | .contains k => .ok (r.step (.contains k))
  | .setCapacity n => .ok (r.step (.setCapacity n))
  | .clear => .ok (r.step .clear)
  | .capacity => .ok (r.step .capacity)
  | .overCapacity => .ok (r.step .overCapacity)

def runStrict (r : Recency K V) (calls : List (Call K V)) : Except Fault (Recency K V) :=
  calls.foldlM (fun r call => Prod.snd <$> r.stepStrict call) r

omit [BEq K] in
theorem touchedSize (r : Recency K V) (i : Nat) : (r.touched i).slots.size = r.slab.slots.size := by
  unfold touched
  split
  · exact Slab.refreshSize r.slab i
  · rfl

/- Whatever is left by a shedding that is not at fault fits. -/
theorem shedStrictFits {r left : Recency K V} {gone : List (K × V)} (shed : r.shedStrict = .ok (gone, left)) :
    left.overCapacity = false := by
  fun_induction shedStrict r generalizing gone left with
  | case1 => cases shed
  | case2 => cases shed
  | case3 r crowded e next evicted ih =>
    obtain ⟨others, later, last⟩ := Fault.bindOk shed
    cases last
    exact ih later
  | case4 r fits =>
    cases shed
    simpa using fits

namespace Layout
variable {r : Recency K V} {chain aside : List (Cell K V)}

theorem loosened {before after : List (Cell K V)} {c : Cell K V}
    (layout : r.Layout (before ++ c :: after) aside) :
    r.loosenStrict c.slot =
      .ok { r with slab := r.slab.detach c.slot, unpinned := r.unpinned - 1 } := by
  have lt := layout.slab.cellInside (show c ∈ before ++ c :: after ++ aside by simp)
  unfold loosenStrict
  rw [layout.slab.inside.detached lt]
  cases count : r.unpinned with
  | zero =>
    have held := layout.count
    simp [count] at held
  | succ n => rfl

theorem touchedStrict {c : Cell K V} (layout : r.Layout chain aside) (mem : c ∈ chain ++ aside) :
    r.touchedStrict c.slot = .ok (r.touched c.slot) := by
  unfold Recency.touchedStrict touched
  split
  · refine layout.slab.inside.refreshed (layout.slab.cellInside mem) (fun loose => ?_)
    rcases List.mem_append.mp mem with chained | alone
    · obtain ⟨before, after, rfl⟩ := List.append_of_mem chained
      exact layout.slab.detach.inside
    · rw [layout.fixedAt alone] at loose
      cases loose
  · rfl

theorem evictOldestStrict (layout : r.Layout chain aside) :
    r.evictOldestStrict = .ok r.evictOldest := by
  unfold Recency.evictOldestStrict evictOldest
  rcases List.eq_nil_or_concat chain with rfl | ⟨rest, c, rfl⟩
  · rw [show r.slab.oldest = none from layout.slab.oldest]
  · rw [List.concat_eq_append] at layout
    have mem : c ∈ rest ++ [c] ++ aside := by simp
    have lt := layout.slab.cellInside mem
    have oldest : r.slab.oldest = some c.slot := by
      rw [layout.slab.oldest]
      simp [Slab.last]
    obtain ⟨newer, older, held⟩ := layout.held mem
    have left := layout.slab.detach.alone c (List.mem_cons_self ..)
    rw [oldest]
    dsimp only
    rw [layout.loosened, held]
    show (r.slab.detach c.slot).vacateStrict c.slot >>= _ = _
    rw [Slab.vacateInside (by rwa [Slab.detachSize]), left]
    rfl

variable [EquivBEq K]

theorem peekStrict (layout : r.Layout chain aside) (k : K) : r.peekStrict k = .ok (r.peek k) := by
  unfold Recency.peekStrict peek
  cases index : r.index.find? k with
  | none => rfl
  | some i =>
    obtain ⟨c, mem, _, rfl⟩ := layout.indexCell index
    obtain ⟨newer, older, held⟩ := layout.held mem
    dsimp only
    rw [Slab.nodeInside (layout.slab.cellInside mem), held]
    simp [held]

theorem touchedValue {c : Cell K V} (layout : r.Layout chain aside) (mem : c ∈ chain ++ aside) :
    ((r.touched c.slot).node? c.slot).map Node.value = some c.value := by
  rcases List.mem_append.mp mem with chained | alone
  · by_cases byUse : r.byUse = true
    · obtain ⟨before, after, rfl⟩ := List.append_of_mem chained
      exact (layout.touchChained byUse).valueAt (List.mem_append_left _ (List.mem_cons_self ..))
    · rw [show r.touched c.slot = r.slab from if_neg byUse]
      exact layout.valueAt mem
  · rw [layout.touchAlone alone]
    exact layout.valueAt mem

theorem getStrict (layout : r.Layout chain aside) (k : K) : r.getStrict k = .ok (r.get k) := by
  unfold Recency.getStrict get
  cases index : r.index.find? k with
  | none => rfl
  | some i =>
    obtain ⟨c, mem, _, rfl⟩ := layout.indexCell index
    have lt : c.slot < (r.touched c.slot).slots.size := by
      rw [touchedSize]
      exact layout.slab.cellInside mem
    dsimp only
    rw [layout.touchedStrict mem]
    show (r.touched c.slot).nodeStrict c.slot >>= _ = _
    rw [Slab.nodeInside lt, layout.valueAt mem, ← layout.touchedValue mem]
    rfl

theorem insertStrict (layout : r.Layout chain aside) (k : K) (v : V) (pinned : Bool) :
    r.insertStrict k v pinned = .ok (r.insert k v pinned) := by
  unfold Recency.insertStrict insert
  cases index : r.index.find? k with
  | none =>
    have occupied := layout.slab.occupy k v pinned
    dsimp only
    rw [layout.slab.inside.occupied]
    cases pinned with
    | true => rfl
    | false =>
      show joinStrict _ _ >>= _ = _
      unfold joinStrict
      rw [occupied.inside.pushed (occupied.cellInside (List.mem_append_right _ (List.mem_cons_self ..)))]
      rfl
  | some i =>
    obtain ⟨c, mem, at_k, rfl⟩ := layout.indexCell index
    have lt := layout.slab.cellInside mem
    obtain ⟨replaced, _, _⟩ := layout.revalue mem at_k v
    have still : c.revalued c.slot v ∈
        chain.map (Slab.Cell.revalued c.slot v) ++ aside.map (Slab.Cell.revalued c.slot v) := by
      rw [← List.map_append]
      exact List.mem_map_of_mem mem
    -- The node moves after its value is replaced, in a slab laid out by the replaced cells.
    have touched := replaced.touchedStrict still
    rw [Slab.revaluedSlot] at touched
    dsimp only
    rw [Slab.nodeInside lt, Slab.updateInside lt]
    show Recency.touchedStrict _ _ >>= _ = _
    rw [touched]
    rfl

theorem removeStrict (layout : r.Layout chain aside) (k : K) : r.removeStrict k = .ok (r.remove k) := by
  unfold Recency.removeStrict remove
  rcases layout.place k with ⟨index, _, _⟩ | ⟨before, after, c, rfl, index, _, _⟩ |
    ⟨before, after, c, rfl, index, _, _⟩
  · rw [index]
  · have mem : c ∈ before ++ c :: after ++ aside := by simp
    have lt := layout.slab.cellInside mem
    have loose := layout.looseAt (show c ∈ before ++ c :: after by simp)
    have held := layout.slab.detach.alone c (List.mem_cons_self ..)
    rw [index]
    dsimp only
    rw [Slab.pinnedInside lt, loose]
    show r.loosenStrict c.slot >>= _ = _
    rw [layout.loosened]
    show (r.slab.detach c.slot).vacateStrict c.slot >>= _ = _
    rw [Slab.vacateInside (by rwa [Slab.detachSize]), held, layout.valueAt mem]
    rfl
  · have mem : c ∈ chain ++ (before ++ c :: after) := by simp
    have lt := layout.slab.cellInside mem
    have fixed := layout.fixedAt (show c ∈ before ++ c :: after by simp)
    rw [index]
    dsimp only
    rw [Slab.pinnedInside lt, fixed]
    show r.slab.vacateStrict c.slot >>= _ = _
    rw [Slab.vacateInside lt]
    rfl

theorem setPinnedStrict (layout : r.Layout chain aside) (k : K) (pinned : Bool) :
    r.setPinnedStrict k pinned = .ok (r.setPinned k pinned) := by
  unfold Recency.setPinnedStrict setPinned
  rcases layout.place k with ⟨index, _, _⟩ | ⟨before, after, c, rfl, index, _, _⟩ |
    ⟨before, after, c, rfl, index, _, _⟩
  · rw [index]
  · have mem : c ∈ before ++ c :: after ++ aside := by simp
    have lt := layout.slab.cellInside mem
    have loose := layout.looseAt (show c ∈ before ++ c :: after by simp)
    rw [index]
    dsimp only
    rw [Slab.pinnedInside lt, loose]
    cases pinned with
    | false => rfl
    | true =>
      show r.loosenStrict c.slot >>= _ = _
      rw [layout.loosened]
      show (r.slab.detach c.slot).updateStrict c.slot _ >>= _ = _
      rw [Slab.updateInside (by rwa [Slab.detachSize])]
      rfl
  · have mem : c ∈ chain ++ (before ++ c :: after) := by simp
    have lt := layout.slab.cellInside mem
    have fixed := layout.fixedAt (show c ∈ before ++ c :: after by simp)
    rw [index]
    dsimp only
    rw [Slab.pinnedInside lt, fixed]
    cases pinned with
    | true => rfl
    | false =>
      have marked := (layout.slab.asidePerm List.perm_middle).repin false
      show r.slab.updateStrict c.slot _ >>= _ = _
      rw [Slab.updateInside lt]
      show joinStrict _ _ >>= _ = _
      unfold joinStrict
      rw [marked.inside.pushed (by rwa [Slab.updateSize])]
      rfl

theorem shedStrict (layout : r.Layout chain aside) : r.shedStrict = .ok r.shed := by
  rw [← shedLooped]
  fun_induction shedLoop r generalizing chain with
  | case1 r crowded left stuck =>
    obtain ⟨_, _, _, _, _, _, _, evicted, _, _⟩ := evictCrowded layout crowded
    rw [evicted] at stuck
    cases stuck
  | case2 r crowded e left evicted others =>
    rename_i ih
    obtain ⟨_, rest, c, next, _, _, rfl, victim, laid, _⟩ := evictCrowded layout crowded
    obtain ⟨_, rfl⟩ := Prod.mk.inj (victim.symm.trans evicted)
    have first := layout.evictOldestStrict
    rw [evicted] at first
    rw [Recency.shedStrict, if_pos crowded]
    split
    · next failed => rw [first] at failed; cases failed
    · next failed => rw [first] at failed; cases failed
    · next done =>
      rw [first] at done
      cases done
      rw [ih laid]
      rfl
  | case3 r fits =>
    rw [Recency.shedStrict, if_neg fits]

theorem stepStrict (layout : r.Layout chain aside) (call : Call K V) : r.stepStrict call = .ok (r.step call) := by
  cases call with
  | insert k v pinned => exact congrArg (· >>= _) (layout.insertStrict k v pinned)
  | get k => exact congrArg (· >>= _) (layout.getStrict k)
  | peek k => exact congrArg (· >>= _) (layout.peekStrict k)
  | remove k => exact congrArg (· >>= _) (layout.removeStrict k)
  | setPinned k pinned => exact congrArg (· >>= _) (layout.setPinnedStrict k pinned)
  | evictOldest => exact congrArg (· >>= _) layout.evictOldestStrict
  | shed => exact congrArg (· >>= _) layout.shedStrict
  | contains | setCapacity | clear | capacity | overCapacity => rfl

end Layout

theorem runShownStrict [EquivBEq K] {r : Recency K V} {s : Shelf K V} (shows : r.Shows s) (calls : List (Call K V)) :
    r.runStrict calls = .ok (r.run calls) := by
  induction calls generalizing r s with
  | nil => rfl
  | cons call rest ih =>
    have later := ih (stepShows shows call).2
    obtain ⟨chain, aside, layout, _⟩ := shows
    unfold runStrict
    rw [List.foldlM_cons, layout.stepStrict]
    exact later

end Recency
end TieredCache
