import TieredCache.Proofs.Turns

/-! What the counters tell of the flow between shelf and line. The entries of either, less those that
the counters account for, make its balance. What an operation makes, drops or moves from one to the
other is counted and moves no balance; only an entry removed from the shelf and a value handed out of
the line do. All of it is reckoned in machine words, as the counters are. -/
namespace TieredCache
open Keyed (Apart find without)
variable {K V : Type}

namespace Event

def evicts : Event K V → Bool
  | .evicted _ _ => true
  | .reclaimed _ => false

def reclaims : Event K V → Bool
  | .evicted _ _ => false
  | .reclaimed _ => true

end Event

/-- By how much the balance of the shelf falls when this is counted once. -/
def Tally.off : Tally → UInt64
  | .insert => 1
  | .promotion => 1
  | .eviction => -1
  | _ => 0

/-- By how much the balance of the line falls when this is counted once. -/
def Tally.out : Tally → UInt64
  | .eviction => 1
  | .promotion => -1
  | .reclaim => -1
  | _ => 0

def evictions (events : List (Event K V)) : Nat := events.countP Event.evicts

def losses (events : List (Event K V)) : Nat := events.countP Event.reclaims

theorem evictedHeard (victims : List (K × V)) :
    evictions (victims.map (fun e => .evicted e.1 e.2)) = victims.length ∧
    losses (victims.map (fun e => .evicted e.1 e.2)) = 0 := by
  simp [evictions, losses, List.countP_map, Function.comp_def, Event.evicts, Event.reclaims]

theorem reclaimedHeard (keys : List K) :
    evictions (keys.map .reclaimed : List (Event K V)) = 0 ∧
    losses (keys.map .reclaimed : List (Event K V)) = keys.length := by
  simp [evictions, losses, List.countP_map, Function.comp_def, Event.evicts, Event.reclaims]

namespace Line

theorem fitLength (l : Line K V) : (l.fit).2.waiting.length + (l.fit).1.length = l.waiting.length := by
  simpa using l.fitCounted (fun _ => true)

theorem receiveLength (filter : Filter K V) (now : Nat) (victims : List (K × V)) (l : Line K V) :
    (l.receive filter now victims).2.waiting.length + (l.receive filter now victims).1.length =
      l.waiting.length + victims.length := by
  simpa using l.receiveCounted (fun _ => true) filter now victims

theorem purgeLength (l : Line K V) (now : Nat) :
    (l.purge now).2.waiting.length + (l.purge now).1.length = l.waiting.length := by
  simpa using l.purgeCounted (fun _ => true) now

end Line

namespace Plain

def shelfBalance (p : Plain K V) : UInt64 :=
  .ofNat p.shelf.entries.length + p.counters.evictions - p.counters.inserts - p.counters.promotions

def lineBalance (p : Plain K V) : UInt64 :=
  .ofNat p.line.waiting.length + p.counters.promotions + p.counters.reclaimed - p.counters.evictions

/-- On the way from one state to another the balance of the shelf falls by `off` and that of the line
by `out`, and what is heard is counted. -/
structure Flows (p : Plain K V) (events : List (Event K V)) (q : Plain K V) (off out : UInt64) : Prop where
  shelf : q.shelfBalance + off = p.shelfBalance
  line : q.lineBalance + out = p.lineBalance
  evictions : q.counters.evictions = p.counters.evictions + .ofNat (evictions events)
  losses : q.counters.reclaimed = p.counters.reclaimed + .ofNat (losses events)

variable {p q r : Plain K V} {a b c d : UInt64}

theorem Flows.trans {first second : List (Event K V)} (one : p.Flows first q a b)
    (two : q.Flows second r c d) : p.Flows (first ++ second) r (a + c) (b + d) := by
  obtain ⟨shelf, line, evicted, lost⟩ := one
  obtain ⟨shelf', line', evicted', lost'⟩ := two
  have all_evicted : TieredCache.evictions (first ++ second) = _ := List.countP_append
  have all_lost : TieredCache.losses (first ++ second) = _ := List.countP_append
  constructor
  · grind
  · grind
  · rw [evicted', evicted, all_evicted, UInt64.ofNat_add, UInt64.add_assoc]
    rfl
  · rw [lost', lost, all_lost, UInt64.ofNat_add, UInt64.add_assoc]
    rfl

theorem Flows.still {events : List (Event K V)} (one : p.Flows events q a b) (two : q.Flows [] r c d) :
    p.Flows events r (a + c) (b + d) := by
  have both := one.trans two
  rwa [List.append_nil] at both

theorem Flows.even {events : List (Event K V)} (flows : p.Flows events q a b) (off : a = c) (out : b = d) :
    p.Flows events q c d := off ▸ out ▸ flows

theorem movedFlows {i j m n : Nat} (shelf : q.shelf.entries.length + i = p.shelf.entries.length + j)
    (line : q.line.waiting.length + m = p.line.waiting.length + n) (counters : q.counters = p.counters) :
    p.Flows [] q (.ofNat i - .ofNat j) (.ofNat m - .ofNat n) := by
  have shelved := congrArg UInt64.ofNat shelf
  have waiting := congrArg UInt64.ofNat line
  rw [UInt64.ofNat_add, UInt64.ofNat_add] at shelved waiting
  constructor
  · unfold shelfBalance
    grind
  · unfold lineBalance
    grind
  · simp [evictions, counters]
  · simp [losses, counters]

theorem sameFlows (shelf : q.shelf.entries.length = p.shelf.entries.length)
    (line : q.line.waiting.length = p.line.waiting.length) (counters : q.counters = p.counters) :
    p.Flows [] q 0 0 :=
  movedFlows (i := 0) (j := 0) (m := 0) (n := 0) shelf line counters

theorem countFlows (p : Plain K V) (what : Tally) (times : Nat) {events : List (Event K V)}
    (evicted : evictions events = if what = .eviction then times else 0)
    (lost : losses events = if what = .reclaim then times else 0) :
    p.Flows events (p.count what times) (what.off * .ofNat times) (what.out * .ofNat times) := by
  have shelf : (p.count what times).shelfBalance + what.off * .ofNat times = p.shelfBalance := by
    cases what <;> simp only [shelfBalance, count, Tally.off] <;> grind
  have line : (p.count what times).lineBalance + what.out * .ofNat times = p.lineBalance := by
    cases what <;> simp only [lineBalance, count, Tally.out] <;> grind
  constructor
  · exact shelf
  · exact line
  · rw [evicted]
    cases what <;> simp [count]
  · rw [lost]
    cases what <;> simp [count]

theorem loseFlows (p : Plain K V) (keys : List K) :
    p.Flows (p.lose keys).events (p.lose keys).plain 0 (-.ofNat keys.length) := by
  obtain ⟨unevicted, lost⟩ := reclaimedHeard (V := V) keys
  have counted := p.countFlows .reclaim keys.length unevicted lost
  exact counted.even (by simp [Tally.off]) (by simp only [Tally.out]; grind)

theorem settleFlows (p : Plain K V) (filter : Filter K V) (now : Nat) :
    p.Flows (p.settle filter now).events (p.settle filter now).plain 0 0 := by
  let victims := p.shelf.surplus
  let received := p.line.receive filter now victims
  let moved : Plain K V := { p with shelf := p.shelf.fitted, line := received.2 }
  have shelf := p.shelf.fittedEntries.length_eq
  rw [List.length_append] at shelf
  have passed : p.Flows [] moved (.ofNat victims.length - .ofNat 0)
      (.ofNat received.1.length - .ofNat victims.length) :=
    movedFlows shelf (p.line.receiveLength filter now victims) rfl
  obtain ⟨evicted, unlost⟩ := evictedHeard victims
  have counted := moved.countFlows .eviction victims.length evicted unlost
  have lost := (moved.count .eviction victims.length).loseFlows received.1
  have all := (passed.trans counted).trans lost
  exact all.even (by simp only [Tally.off]; grind) (by simp only [Tally.out]; grind)

theorem setCacheSizeFlows (p : Plain K V) (filter : Filter K V) (now : Nat) (n : Option Nat) :
    p.Flows (p.setCacheSize filter now n).events (p.setCacheSize filter now n).plain 0 0 := by
  have resized : p.Flows [] { p with shelf := { p.shelf with capacity := n } } 0 0 := sameFlows rfl rfl rfl
  exact resized.trans (settleFlows _ filter now)

/- What the line drops by itself is reported, all of it. -/
theorem droppedFlows (p : Plain K V) {line : Line K V} {gone : List K}
    (length : line.waiting.length + gone.length = p.line.waiting.length) :
    p.Flows (lose { p with line } gone).events (lose { p with line } gone).plain 0 0 := by
  have shrunk : p.Flows [] { p with line } 0 (.ofNat gone.length - .ofNat 0) :=
    movedFlows (i := 0) (j := 0) rfl length rfl
  exact (shrunk.trans (loseFlows _ gone)).even (by decide) (by grind)

theorem setSoftSizeFlows (p : Plain K V) (n : Option Nat) :
    p.Flows (p.setSoftSize n).events (p.setSoftSize n).plain 0 0 :=
  p.droppedFlows (Line.fitLength { p.line with bound := n })

theorem purgeFlows (p : Plain K V) (now : Nat) :
    p.Flows (p.purge now).events (p.purge now).plain 0 0 :=
  p.droppedFlows (p.line.purgeLength now)

/- What leaves the line into the caller's hands, when the shelf had nothing. -/
def handed (found answer : Option V) : UInt64 := if answer.isSome && !found.isSome then 1 else 0

theorem handedSome (v : V) : handed none (some v) = 1 := rfl

theorem shelvedFlows (p : Plain K V) (k : K) (v : V) (pinned : Bool) :
    p.Flows [] { p with shelf := p.shelf.enter k v pinned } (-1) 0 := by
  have entered := (p.shelf.enterEntries k v pinned).length_eq
  exact movedFlows (i := 0) (j := 1) (m := 0) (n := 0) entered rfl rfl

variable [BEq K]

theorem enterFlows (p : Plain K V) (k : K) (v : V) : p.Flows [] (p.enter k v) (-1) 0 :=
  p.shelvedFlows k v (p.isPinned k)

theorem markFlows (p : Plain K V) (k : K) : p.Flows [] (p.mark k) 0 0 := by
  obtain ⟨shelf, line⟩ := p.markKeeps k
  have counters : (p.mark k).counters = p.counters := by
    unfold mark
    split <;> rfl
  exact sameFlows (by rw [shelf]) (by rw [line]) counters

variable [EquivBEq K]

theorem withdrawFlows (single : p.Single) (now : Nat) (k : K) :
    p.Flows (p.withdraw now k).events (p.withdraw now k).plain 0 (handed none (p.withdraw now k).answer) := by
  have taken := Keyed.withoutLength single.apart.2 k
  unfold withdraw
  cases found : find Admission.key p.line.waiting k with
  | none => exact sameFlows rfl rfl rfl
  | some a =>
    rw [found] at taken
    have removed : p.Flows [] { p with line := p.line.remove k } 0 1 :=
      movedFlows (i := 0) (j := 0) (m := 1) (n := 0) rfl taken rfl
    dsimp only
    split
    · have balanced : 1 + -UInt64.ofNat [k].length = 0 := by
        rw [List.length_singleton]
        decide
      exact (removed.trans (loseFlows _ [k])).even (by decide) balanced
    · exact removed

theorem fetchFlows (single : p.Single) (filter : Filter K V) (now : Nat) (k : K) :
    p.Flows (p.fetch filter now k).events (p.fetch filter now k).plain 0 0 := by
  have taken := withdrawFlows single now k
  unfold fetch
  cases p.shelf.find? k with
  | some v =>
    have touched : p.Flows [] { p with shelf := p.shelf.touch k } 0 0 :=
      sameFlows (Shelf.touchEntries single.recent k).length_eq rfl rfl
    exact touched.still (countFlows _ .hit 1 rfl rfl)
  | none =>
    dsimp only
    cases answer : (p.withdraw now k).answer with
    | none =>
      rw [answer] at taken
      exact taken.still (countFlows _ .miss 1 rfl rfl)
    | some v =>
      rw [answer, handedSome] at taken
      have hit := taken.still (countFlows _ .hit 1 rfl rfl)
      have promoted := hit.still (countFlows _ .promotion 1 rfl rfl)
      have entered := promoted.still (enterFlows _ k v)
      exact (entered.trans (settleFlows _ filter now)).even (by decide) (by decide)

theorem discardFlows (single : p.Single) (now : Nat) (k : K) :
    p.Flows (p.discard now k).events (p.discard now k).plain (if (p.shelf.find? k).isSome then 1 else 0)
      (handed (p.shelf.find? k) (p.discard now k).answer) := by
  let dropped : Plain K V := { p with shelf := p.shelf.remove k, pins := without id p.pins k }
  have taken := withdrawFlows (single.remove k (without id p.pins k)) now k
  have length := Keyed.withoutLength single.apart.1 k
  rw [← Shelf.removeEntries, ← Option.isSome_map (f := Prod.snd), ← Shelf.findEntries] at length
  unfold discard
  cases found : p.shelf.find? k with
  | none =>
    rw [found] at length
    have kept : p.Flows [] dropped 0 0 := sameFlows length rfl rfl
    exact (kept.trans taken).even (by simp) (by simp)
  | some v =>
    rw [found] at length
    have removed : p.Flows [] dropped 1 0 := movedFlows (i := 1) (j := 0) (m := 0) (n := 0) length rfl rfl
    -- A key on the shelf does not wait as well.
    have waits := single.either (show (p.shelf.find? k).isSome by rw [found]; rfl)
    have nothing : (dropped.withdraw now k).answer = none := by
      unfold withdraw
      rw [waits]
    rw [nothing] at taken
    exact (removed.trans taken).even rfl rfl

theorem holdFlows (single : p.Single) (now : Nat) (k : K) :
    p.Flows (p.hold now k).events (p.hold now k).plain 0 0 := by
  have taken := withdrawFlows single now k
  unfold hold
  cases p.shelf.find? k with
  | some v =>
    have pinned : p.Flows [] { p with shelf := p.shelf.pin k } 0 0 :=
      sameFlows (Shelf.pinEntries single.recent k).length_eq rfl rfl
    exact pinned.still (markFlows _ k)
  | none =>
    dsimp only
    cases answer : (p.withdraw now k).answer with
    | none =>
      rw [answer] at taken
      exact taken.still (markFlows _ k)
    | some v =>
      rw [answer, handedSome] at taken
      have promoted := taken.still (countFlows _ .promotion 1 rfl rfl)
      have entered := promoted.still (shelvedFlows _ k v true)
      exact (entered.still (markFlows _ k)).even (by decide) (by decide)

theorem releaseFlows (single : p.Single) (filter : Filter K V) (now : Nat) (k : K) :
    p.Flows (p.release filter now k).events (p.release filter now k).plain 0 0 := by
  have freed : p.Flows [] { p with shelf := p.shelf.unpin k, pins := without id p.pins k } 0 0 :=
    sameFlows (Shelf.unpinEntries single.pinned k).length_eq rfl rfl
  unfold release
  cases p.shelf.find? k with
  | some v => exact freed.trans (settleFlows _ filter now)
  | none => exact freed

variable [Identity K]

theorem storeFlows (sound : p.Sound) (filter : Filter K V) (now : Nat) (k : K) (v : V) :
    p.Flows (p.store filter now k v).events (p.store filter now k v).plain 0
      (handed (p.shelf.find? k) (p.store filter now k v).answer) := by
  have taken := withdrawFlows sound.single now k
  unfold store
  cases found : p.shelf.find? k with
  | some old =>
    have same : (p.shelf.replace k v).entries.length = p.shelf.entries.length := by
      rw [Shelf.replaceEntries]
      exact List.length_map _
    have touched := (Shelf.touchEntries (sound.replace k v).single.recent k).length_eq
    exact sameFlows (touched.trans same) rfl rfl
  | none =>
    have entered := taken.still (enterFlows _ k v)
    have inserted := entered.still (countFlows _ .insert 1 rfl rfl)
    exact (inserted.trans (settleFlows _ filter now)).even rfl (by simp [Tally.out])

end Plain
end TieredCache
