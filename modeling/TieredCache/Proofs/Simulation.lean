import TieredCache.Proofs.LineCalls
import TieredCache.Proofs.ShelfCalls
import TieredCache.Proofs.Turns

/-! The cache does what the plain lists do. A cache shows plain lists when its tiers show the shelf
and the line and the rest is the same; each operation then answers the same, is heard the same and
shows the lists that the plain operation leaves. The entries that an expiry sweep reports come in
no order. -/
namespace TieredCache
open Keyed (Apart find without)
variable {K V A : Type} [BEq K]

structure Cache.Shows (c : Cache K V) (p : Plain K V) : Prop where
  primary : c.primary.Shows p.shelf
  overflow : c.overflow.Shows p.line
  pins : c.pins.keys = p.pins
  counters : c.counters = p.counters
  hint : c.concurrencyHint = p.concurrencyHint

structure Outcome.Follows (o : Outcome K V A) (t : Turn K V A) : Prop where
  answer : o.answer = t.answer
  events : o.events = t.events
  shows : o.cache.Shows t.plain

namespace Cache
variable {c : Cache K V} {p : Plain K V}

theorem Shows.count (shows : c.Shows p) (what : Tally) (times : Nat) :
    (c.count what times).Shows (p.count what times) := by
  refine ⟨shows.primary, shows.overflow, shows.pins, ?_, shows.hint⟩
  rw [Plain.countRecord, ← shows.counters]
  rfl

theorem Shows.pinned (shows : c.Shows p) (k : K) : c.pins.contains k = p.isPinned k := by
  rw [Pins.contains, Plain.isPinned, shows.pins]

theorem Shows.withPrimary (shows : c.Shows p) {primary : Recency K V} {shelf : Shelf K V}
    (shown : primary.Shows shelf) :
    Shows { c with primary := primary } { p with shelf := shelf } :=
  ⟨shown, shows.overflow, shows.pins, shows.counters, shows.hint⟩

theorem Shows.withOverflow (shows : c.Shows p) {overflow : Overflow K V} {line : Line K V}
    (shown : overflow.Shows line) :
    Shows { c with overflow := overflow } { p with line := line } :=
  ⟨shows.primary, shown, shows.pins, shows.counters, shows.hint⟩

theorem Shows.marked (shows : c.Shows p) (k : K) :
    Shows { c with pins := (c.pins.add k).2 } (p.mark k) := by
  have same := shows.pinned k
  unfold Pins.add Plain.mark
  rw [same]
  cases p.isPinned k with
  | true => exact shows
  | false =>
    exact ⟨shows.primary, shows.overflow, congrArg (· ++ [k]) shows.pins, shows.counters, shows.hint⟩

theorem Shows.reclaim (shows : c.Shows p) (keys : List K) : (c.reclaim keys).Follows (p.lose keys) :=
  ⟨rfl, rfl, shows.count .reclaim keys.length⟩

theorem createShows {config : Config} {c : Cache K V} (created : create config = .ok c) :
    c.Shows (Plain.start config) := by
  unfold create at created
  cases valid : config.validate with
  | error e => simp [valid, bind, Except.bind] at created
  | ok u =>
    rw [valid] at created
    obtain rfl := Except.ok.inj created
    exact ⟨Recency.emptyShows _ _, Overflow.emptyShows _ _, rfl, rfl, rfl⟩

theorem Shows.clear (shows : c.Shows p) : c.clear.Shows p.clear :=
  ⟨Recency.clearShows shows.primary, Overflow.clearSpelled shows.overflow, rfl, rfl, shows.hint⟩

variable [EquivBEq K]

theorem surplusFresh (single : p.Single) :
    Apart Prod.fst p.shelf.surplus ∧
    ∀ e ∈ p.shelf.surplus, find Admission.key p.line.waiting e.1 = none := by
  constructor
  · unfold Shelf.surplus
    split
    · refine (Keyed.apartPerm (List.reverse_perm _)).mpr ?_
      exact Keyed.apartSublist single.recent (List.drop_sublist _ _)
    · exact List.Pairwise.nil
  · intro e mem
    refine single.either ?_
    have held := p.shelf.surplusMem mem
    rw [Shelf.find?, Keyed.findOf single.recent held (BEq.refl e.1)]
    rfl

theorem Shows.settle (shows : c.Shows p) (single : p.Single) (filter : Filter K V) (now : Nat) :
    (c.settle filter now).Follows (p.settle filter now) := by
  obtain ⟨victims, fitted⟩ := Recency.shedShows shows.primary
  obtain ⟨apart, fresh⟩ := surplusFresh single
  obtain ⟨dropped, received⟩ := Overflow.receiveShows shows.overflow filter now apart fresh
  unfold Cache.settle Plain.settle
  dsimp only
  rw [victims, dropped]
  refine ⟨rfl, rfl, ?_⟩
  exact (((shows.withPrimary fitted).withOverflow received).count _ _).count _ _

theorem Shows.withdraw (shows : c.Shows p) (now : Nat) (k : K) :
    (c.withdraw now k).Follows (p.withdraw now k) := by
  obtain ⟨found, left⟩ := Overflow.withdrawSpelled shows.overflow now k
  unfold Cache.withdraw Plain.withdraw
  dsimp only
  cases waits : find Admission.key p.line.waiting k with
  | none =>
    rw [waits] at found
    have same : p.line.remove k = p.line := by
      rw [Line.remove, Keyed.withoutNone (Keyed.findNone.mp waits)]
    rw [same] at left
    rw [found]
    exact ⟨rfl, rfl, shows.withOverflow left⟩
  | some a =>
    rw [waits] at found
    have taken := shows.withOverflow left
    cases late : a.expired p.line.lifetime now with
    | true =>
      rw [found]
      simp only [late, if_true]
      exact ⟨rfl, rfl, taken.count _ _⟩
    | false =>
      rw [found]
      simp only [late, Bool.false_eq_true, if_false]
      exact ⟨rfl, rfl, taken⟩

theorem Shows.enter (shows : c.Shows p) {k : K} (absent : p.shelf.find? k = none) (v : V) :
    (c.enter k v (c.pins.contains k)).Shows (p.enter k v) := by
  rw [shows.pinned]
  exact shows.withPrimary (Recency.insertAbsent shows.primary absent v (p.isPinned k)).2

theorem Shows.arrive [Identity K] (shows : c.Shows p) (sound : p.Sound) (now : Nat) {k : K}
    (valid : Identity.valid k = true) (absent : p.shelf.find? k = none) (v : V) :
    ((c.withdraw now k).cache.enter k v (c.pins.contains k)).Shows ((p.withdraw now k).plain.enter k v) ∧
    ((p.withdraw now k).plain.enter k v).Sound := by
  have taken := (shows.withdraw now k).shows
  have left := p.withdrawStock now k
  obtain ⟨shelf, pins, _⟩ := p.withdrawKeeps now k
  have same : c.pins.contains k = (c.withdraw now k).cache.pins.contains k := by
    rw [shows.pinned, taken.pinned, Plain.isPinned, Plain.isPinned, pins]
  have still : (p.withdraw now k).plain.shelf.find? k = none := by rw [shelf, absent]
  rw [Plain.absentStock absent] at left
  rw [same]
  exact ⟨taken.enter still v, (sound.withdraw now k).enter valid left v⟩

theorem Shows.fetch [Identity K] (shows : c.Shows p) (sound : p.Sound) (filter : Filter K V) (now : Nat)
    {k : K} (valid : Identity.valid k = true) :
    (c.fetch filter now k).Follows (p.fetch filter now k) := by
  obtain ⟨value, touched⟩ := Recency.getShows shows.primary k
  obtain ⟨answer, events, taken⟩ := shows.withdraw now k
  unfold Cache.fetch Plain.fetch
  dsimp only
  rw [value]
  cases found : p.shelf.find? k with
  | some v => exact ⟨rfl, rfl, (shows.withPrimary touched).count .hit 1⟩
  | none =>
    dsimp only
    rw [answer]
    cases (p.withdraw now k).answer with
    | none => exact ⟨rfl, events, taken.count .miss 1⟩
    | some v =>
      obtain ⟨arrived, entered⟩ := shows.arrive sound now valid found v
      have promoted := (arrived.count .hit 1).count .promotion 1
      have settled := promoted.settle ((entered.count .hit 1).count .promotion 1).single filter now
      dsimp only
      rw [events]
      exact ⟨rfl, congrArg ((p.withdraw now k).events ++ ·) settled.events, settled.shows⟩

theorem Shows.store [Identity K] (shows : c.Shows p) (sound : p.Sound) (filter : Filter K V) (now : Nat)
    {k : K} (valid : Identity.valid k = true) (v : V) :
    (c.store filter now k v).Follows (p.store filter now k v) := by
  have contains := Recency.containsShown shows.primary k
  obtain ⟨answer, events, taken⟩ := shows.withdraw now k
  unfold Cache.store Plain.store
  dsimp only
  rw [contains]
  cases found : p.shelf.find? k with
  | some old =>
    obtain ⟨previous, replaced⟩ := Recency.insertHeld shows.primary (by rw [found]; rfl) v false
    exact ⟨previous.trans found, rfl, shows.withPrimary replaced⟩
  | none =>
    obtain ⟨arrived, entered⟩ := shows.arrive sound now valid found v
    have settled := (arrived.count .insert 1).settle (entered.count .insert 1).single filter now
    simp only [Option.isSome_none, Bool.false_eq_true, if_false]
    rw [events]
    exact ⟨answer, congrArg ((p.withdraw now k).events ++ ·) settled.events, settled.shows⟩

theorem Shows.storeAll [Identity K] (shows : c.Shows p) (sound : p.Sound) (filter : Filter K V)
    (now : Nat) {entries : List (K × V)} (valid : ∀ e ∈ entries, Identity.valid e.1 = true) :
    (c.storeAll filter now entries).Follows (p.storeAll filter now entries) := by
  induction entries generalizing c p with
  | nil => exact ⟨rfl, rfl, shows⟩
  | cons e rest ih =>
    have at_e := valid e (by simp)
    have first := shows.store sound filter now at_e e.2
    have lawful := Plain.storeLawful sound filter now at_e e.2
    have others := ih first.shows lawful.sound (fun d mem => valid d (by simp [mem]))
    unfold Cache.storeAll Plain.storeAll
    dsimp only
    rw [first.events]
    exact ⟨others.answer, congrArg ((p.store filter now e.1 e.2).events ++ ·) others.events, others.shows⟩

theorem Shows.discard (shows : c.Shows p) (now : Nat) (k : K) :
    (c.discard now k).Follows (p.discard now k) := by
  obtain ⟨value, removed⟩ := Recency.removeShows shows.primary k
  have dropped : Shows { c with primary := (c.primary.remove k).2, pins := (c.pins.drop k).2 }
      { p with shelf := p.shelf.remove k, pins := without id p.pins k } :=
    ⟨removed, shows.overflow, congrArg (without id · k) shows.pins, shows.counters, shows.hint⟩
  obtain ⟨answer, events, taken⟩ := dropped.withdraw now k
  refine ⟨?_, events, taken⟩
  show ((c.primary.remove k).1 <|> _) = (p.shelf.find? k).or _
  rw [value, answer]
  cases p.shelf.find? k <;> rfl

theorem Shows.hold (shows : c.Shows p) (now : Nat) (k : K) :
    (c.hold now k).Follows (p.hold now k) := by
  obtain ⟨found, moved⟩ := Recency.pinShows shows.primary k
  obtain ⟨answer, events, taken⟩ := shows.withdraw now k
  obtain ⟨shelf, _, _⟩ := p.withdrawKeeps now k
  unfold Cache.hold Plain.hold
  dsimp only
  rw [found]
  cases held : p.shelf.find? k with
  | some v => exact ⟨rfl, rfl, (shows.withPrimary moved).marked k⟩
  | none =>
    simp only [Option.isSome_none, Bool.false_eq_true, if_false]
    rw [answer]
    cases (p.withdraw now k).answer with
    | none => exact ⟨rfl, events, taken.marked k⟩
    | some v =>
      have promoted := taken.count .promotion 1
      have absent : (p.withdraw now k).plain.shelf.find? k = none := by rw [shelf, held]
      have entered := (Recency.insertAbsent promoted.primary absent v true).2
      exact ⟨rfl, events, (promoted.withPrimary entered).marked k⟩

theorem Shows.release [Identity K] (shows : c.Shows p) (sound : p.Sound) (filter : Filter K V)
    (now : Nat) (k : K) : (c.release filter now k).Follows (p.release filter now k) := by
  obtain ⟨found, moved⟩ := Recency.unpinShows shows.primary k
  have freed : Shows { c with pins := (c.pins.drop k).2, primary := (c.primary.setPinned k false).2 }
      { p with shelf := p.shelf.unpin k, pins := without id p.pins k } :=
    ⟨moved, shows.overflow, congrArg (without id · k) shows.pins, shows.counters, shows.hint⟩
  have settled := freed.settle (sound.unpin k).single filter now
  have pinned : (c.pins.drop k).1 = p.isPinned k := shows.pinned k
  unfold Cache.release Plain.release
  dsimp only
  rw [found]
  cases p.shelf.find? k with
  | some v => exact ⟨pinned, settled.events, settled.shows⟩
  | none => exact ⟨pinned, rfl, freed⟩

theorem Shows.setCacheSize (shows : c.Shows p) (single : p.Single) (filter : Filter K V) (now : Nat)
    (n : Option Nat) : (c.setCacheSize filter now n).Follows (p.setCacheSize filter now n) := by
  have resized := shows.withPrimary (Recency.setCapacityShows shows.primary n)
  exact resized.settle single filter now

theorem Shows.setSoftSize (shows : c.Shows p) (n : Option Nat) :
    (c.setSoftSize n).Follows (p.setSoftSize n) := by
  obtain ⟨dropped, fitted⟩ := Overflow.setBoundSpelled shows.overflow n
  unfold Cache.setSoftSize Plain.setSoftSize
  dsimp only
  rw [dropped]
  exact (shows.withOverflow fitted).reclaim _

theorem Shows.purge (shows : c.Shows p) (now : Nat) :
    (c.purge now).answer = (p.purge now).answer ∧ (c.purge now).events.Perm (p.purge now).events ∧
    (c.purge now).cache.Shows (p.purge now).plain := by
  obtain ⟨dropped, left⟩ := Overflow.purgeShows shows.overflow now
  have length := dropped.length_eq
  have counted := (shows.withOverflow left).count .reclaim (p.line.purge now).1.length
  rw [← length] at counted
  refine ⟨length, dropped.map _, ?_⟩
  unfold Plain.purge
  dsimp only [Plain.lose]
  rw [← length]
  exact counted

theorem Shows.holds (shows : c.Shows p) (now : Nat) (k : K) :
    c.holds now k = (p.lookup now k).isSome ∧ c.glance now k = p.lookup now k := by
  have primary := Recency.peekShown shows.primary k
  have contains := Recency.containsShown shows.primary k
  have overflow := Overflow.lookupShown shows.overflow now k
  unfold Cache.holds glance Plain.lookup Overflow.contains
  rw [primary, contains, overflow, Option.isSome_or]
  exact ⟨rfl, by cases p.shelf.find? k <;> rfl⟩

omit [EquivBEq K] in
theorem Shows.size (shows : c.Shows p) (now : Nat) : c.size now = p.size now := by
  unfold Cache.size Plain.size
  rw [Recency.sizeShown shows.primary, Overflow.liveSizeShown shows.overflow]

theorem Shows.listing (shows : c.Shows p) (now : Nat) :
    (c.listing now).recent = (p.listing now).recent ∧
    (c.listing now).pinned.Perm (p.listing now).pinned ∧
    (c.listing now).overflow = (p.listing now).overflow :=
  ⟨congrArg (List.map Prod.fst) (Recency.unpinnedShown shows.primary),
    (Recency.pinnedShown shows.primary).map Prod.fst, Overflow.liveKeysShown shows.overflow now⟩

end Cache
end TieredCache
