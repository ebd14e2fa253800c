import TieredCache.Proofs.Renumbered
import TieredCache.Proofs.Resized

/-! A cleared cache is as good as new. Clearing keeps the sizes, the mode, the lifetime and the next generation
to give; of these only the last tells a used cache from a new one, and it never shows: a cache whose generations
are all later answers, counts and is heard the same. The hint is given back when asked for and plays no part. -/
namespace TieredCache
open Keyed (without)
variable {K V A : Type}

/-- The same cache but for the hint, and with generations later by one number. -/
def Cache.renewed (n : Nat) (hint : Option Nat) (c : Cache K V) : Cache K V :=
  { c with overflow := c.overflow.later n, concurrencyHint := hint }

def Outcome.renewed (n : Nat) (hint : Option Nat) (o : Outcome K V A) : Outcome K V A :=
  { o with cache := o.cache.renewed n hint }

theorem Outcome.renewedAnswer (n : Nat) (hint : Option Nat) {o renewed : Outcome K V A}
    (same : renewed = o.renewed n hint) {B : Type} (say : A → B) :
    { renewed with answer := say renewed.answer } =
      Outcome.renewed n hint { o with answer := say o.answer } := by
  rw [same]
  rfl

namespace Cache
variable [BEq K] (n : Nat) (hint : Option Nat) (filter : Filter K V) (now : Nat) (c : Cache K V)

theorem renewedSettle : (c.renewed n hint).settle filter now = (c.settle filter now).renewed n hint := by
  have received := Overflow.laterReceive n c.overflow filter now c.primary.shed.1
  unfold settle
  dsimp only [renewed]
  rw [received]
  rfl

theorem renewedWithdraw (k : K) : (c.renewed n hint).withdraw now k = (c.withdraw now k).renewed n hint := by
  have withdrawn := Overflow.laterWithdraw n c.overflow now k
  unfold withdraw
  dsimp only [renewed]
  rw [withdrawn]
  cases (c.overflow.withdraw now k).1 <;> rfl

theorem renewedFetch (k : K) : (c.renewed n hint).fetch filter now k = (c.fetch filter now k).renewed n hint := by
  have primary : (c.renewed n hint).primary = c.primary := rfl
  unfold fetch
  dsimp only
  rw [primary, renewedWithdraw]
  cases (c.primary.get k).1 with
  | some v => rfl
  | none =>
    have answer : ((c.withdraw now k).renewed n hint).answer = (c.withdraw now k).answer := rfl
    dsimp only
    rw [answer]
    cases (c.withdraw now k).answer with
    | none => rfl
    | some v =>
      let promoted := (((c.withdraw now k).cache.count .hit 1).count .promotion 1).enter k v (c.pins.contains k)
      have settled := renewedSettle n hint filter now promoted
      exact congrArg (fun o : Outcome K V Unit =>
        Outcome.mk (some v) ((c.withdraw now k).events ++ o.events) o.cache) settled

theorem renewedStore (k : K) (v : V) :
    (c.renewed n hint).store filter now k v = (c.store filter now k v).renewed n hint := by
  have primary : (c.renewed n hint).primary = c.primary := rfl
  unfold store
  dsimp only
  rw [primary, renewedWithdraw]
  split
  · rfl
  · let entered := ((c.withdraw now k).cache.enter k v (c.pins.contains k)).count .insert 1
    have settled := renewedSettle n hint filter now entered
    exact congrArg (fun o : Outcome K V Unit =>
      Outcome.mk (c.withdraw now k).answer ((c.withdraw now k).events ++ o.events) o.cache) settled

theorem renewedStoreAll (entries : List (K × V)) :
    (c.renewed n hint).storeAll filter now entries = (c.storeAll filter now entries).renewed n hint := by
  induction entries generalizing c with
  | nil => rfl
  | cons e rest ih =>
    obtain ⟨k, v⟩ := e
    unfold storeAll
    dsimp only
    rw [renewedStore]
    exact congrArg (fun o : Outcome K V Unit => { o with events := (c.store filter now k v).events ++ o.events })
      (ih (c.store filter now k v).cache)

theorem renewedDiscard (k : K) : (c.renewed n hint).discard now k = (c.discard now k).renewed n hint := by
  let removed : Cache K V := { c with primary := (c.primary.remove k).2, pins := (c.pins.drop k).2 }
  have taken := renewedWithdraw n hint now removed k
  exact congrArg (fun o : Outcome K V (Option V) => { o with answer := (c.primary.remove k).1 <|> o.answer }) taken

theorem renewedHold (k : K) : (c.renewed n hint).hold now k = (c.hold now k).renewed n hint := by
  have primary : (c.renewed n hint).primary = c.primary := rfl
  unfold hold
  dsimp only
  rw [primary, renewedWithdraw]
  split
  · rfl
  · have answer : ((c.withdraw now k).renewed n hint).answer = (c.withdraw now k).answer := rfl
    rw [answer]
    cases (c.withdraw now k).answer <;> rfl

theorem renewedRelease (k : K) :
    (c.renewed n hint).release filter now k = (c.release filter now k).renewed n hint := by
  have primary : (c.renewed n hint).primary = c.primary := rfl
  unfold release
  dsimp only
  rw [primary]
  split
  · let released : Cache K V := { c with pins := (c.pins.drop k).2, primary := (c.primary.setPinned k false).2 }
    have settled := renewedSettle n hint filter now released
    exact congrArg (fun o : Outcome K V Unit => { o with answer := (c.pins.drop k).1 }) settled
  · rfl

theorem renewedSetSoftSize (size : Option Nat) :
    (c.renewed n hint).setSoftSize size = (c.setSoftSize size).renewed n hint := by
  have trimmed := Overflow.laterSetBound n c.overflow size
  unfold setSoftSize
  dsimp only [renewed]
  rw [trimmed]
  rfl

theorem renewedPurge : (c.renewed n hint).purge now = (c.purge now).renewed n hint := by
  have dropped := Overflow.laterDropExpired n c.overflow now
  unfold purge
  dsimp only [renewed]
  rw [dropped]
  rfl

theorem renewedHolds (k : K) :
    (c.renewed n hint).holds now k = c.holds now k ∧ (c.renewed n hint).glance now k = c.glance now k := by
  have lookup := Overflow.laterLookup n c.overflow now k
  unfold holds glance Overflow.contains
  dsimp only [renewed]
  rw [lookup]
  exact ⟨rfl, rfl⟩

omit [BEq K] in
theorem renewedSize : (c.renewed n hint).size now = c.size now :=
  congrArg (c.primary.size + ·) (c.overflow.laterLiveSize n now)

theorem renewedListing : (c.renewed n hint).listing now = c.listing now :=
  congrArg (Listing.mk _ _) (Overflow.laterLiveKeys n c.overflow now)

omit [BEq K] in
theorem renewedReplied (checked : Except Error Unit) (say : A → Reply K V) {o renewed : Outcome K V A}
    (same : renewed = o.renewed n hint) :
    (c.renewed n hint).replied say (do checked; return renewed) =
      (c.replied say (do checked; return o)).renewed n hint := by
  rw [same]
  cases checked <;> rfl

omit [BEq K] in
theorem renewedObserved {a b : Reply K V} (same : b = a) :
    (c.renewed n hint).observed b = (c.observed a).renewed n hint := by
  rw [same]
  rfl

variable [Identity K]

theorem renewedStep (call : Call K V) (told : call = .concurrencyHint → hint = c.concurrencyHint) :
    (c.renewed n hint).step filter now call = (c.step filter now call).renewed n hint := by
  cases call with
  | get k => exact c.renewedReplied n hint (check .get k) .value (c.renewedFetch n hint filter now k)
  | put k v => exact c.renewedReplied n hint (check .put k) .value (c.renewedStore n hint filter now k v)
  | putAll entries =>
    exact c.renewedReplied n hint (checkAll .putAll (entries.map Prod.fst)) (fun _ => .done)
      (c.renewedStoreAll n hint filter now entries)
  | remove k => exact c.renewedReplied n hint (check .remove k) .value (c.renewedDiscard n hint now k)
  | pin k => exact c.renewedReplied n hint (check .pin k) .flag (c.renewedHold n hint now k)
  | unpin k => exact c.renewedReplied n hint (check .unpin k) .flag (c.renewedRelease n hint filter now k)
  | containsKey k =>
    have held := congrArg (fun held => Reply.of (K := K) (V := V) .flag (do check .containsKey k; return held))
      (c.renewedHolds n hint now k).1
    exact c.renewedObserved n hint held
  | peek k =>
    have found := congrArg (fun found => Reply.of (K := K) .value (do check .peek k; return found))
      (c.renewedHolds n hint now k).2
    exact c.renewedObserved n hint found
  | size => exact c.renewedObserved n hint (congrArg Reply.count (c.renewedSize n hint now))
  | isEmpty =>
    exact c.renewedObserved n hint (congrArg (fun size => Reply.flag (size == 0)) (c.renewedSize n hint now))
  | keys => exact c.renewedObserved n hint (congrArg Reply.keys (c.renewedListing n hint now))
  | setCacheSize size =>
    have settled := renewedSettle n hint filter now { c with primary := c.primary.setCapacity size }
    exact Outcome.renewedAnswer n hint settled (fun _ => Reply.done)
  | setSoftSize size => exact Outcome.renewedAnswer n hint (c.renewedSetSoftSize n hint size) (fun _ => Reply.done)
  | purge => exact Outcome.renewedAnswer n hint (c.renewedPurge n hint now) Reply.count
  | concurrencyHint => exact c.renewedObserved n hint (congrArg Reply.limit (told rfl))
  | _ => rfl

/- The hint itself is asked for in vain, but even then nothing is heard and the cache is left the same. -/
theorem renewedLeft (call : Call K V) :
    ((c.renewed n hint).step filter now call).events = (c.step filter now call).events ∧
    ((c.renewed n hint).step filter now call).cache = ((c.step filter now call).cache).renewed n hint := by
  by_cases asked : call = .concurrencyHint
  · rw [asked]
    exact ⟨rfl, rfl⟩
  · have stepped := c.renewedStep n hint filter now call (fun told => absurd told asked)
    rw [stepped]
    exact ⟨rfl, rfl⟩

omit [BEq K] [Identity K] in
theorem renewedSelf : c.renewed 0 c.concurrencyHint = c := by
  unfold renewed
  rw [Overflow.laterZero]

theorem hintKept (call : Call K V) : (c.step filter now call).cache.concurrencyHint = c.concurrencyHint := by
  have left := (c.renewedLeft 0 c.concurrencyHint filter now call).2
  rw [renewedSelf] at left
  have hint := congrArg Cache.concurrencyHint left
  exact hint

end Cache

namespace Session
variable [BEq K] [Identity K] (n : Nat) (hint : Option Nat) (filter : Filter K V)

def renewed (s : Session K V) : Session K V := { s with cache := s.cache.renewed n hint }

theorem renewedRun (s : Session K V) (moves : List (Move K V)) :
    (s.renewed n hint).run filter moves = (s.run filter moves).renewed n hint := by
  induction moves generalizing s with
  | nil => rfl
  | cons move rest ih =>
    cases move with
    | wait time => exact ih { s with now := s.now + time }
    | call call =>
      have left := (s.cache.renewedLeft n hint filter s.now call).2
      calc (s.renewed n hint).run filter (.call call :: rest)
        _ = run filter ⟨s.now, ((s.cache.renewed n hint).step filter s.now call).cache⟩ rest := rfl
        _ = run filter (renewed n hint ⟨s.now, (s.cache.step filter s.now call).cache⟩) rest := by
          rw [left]
          rfl
        _ = _ := ih _

theorem renewedAnswered (s : Session K V) (call : Call K V)
    (told : call = .concurrencyHint → hint = s.cache.concurrencyHint) :
    (s.renewed n hint).answer filter call = s.answer filter call := by
  have same := congrArg Outcome.answer (s.cache.renewedStep n hint filter s.now call told)
  exact same

theorem renewedHeard (s : Session K V) (call : Call K V) :
    (s.renewed n hint).events filter call = s.events filter call :=
  (s.cache.renewedLeft n hint filter s.now call).1

theorem hintRun (s : Session K V) (moves : List (Move K V)) :
    (s.run filter moves).cache.concurrencyHint = s.cache.concurrencyHint := by
  induction moves generalizing s with
  | nil => rfl
  | cons move rest ih =>
    cases move with
    | wait time => exact ih { s with now := s.now + time }
    | call call => exact (ih (s.after filter call)).trans (s.cache.hintKept filter s.now call)

end Session

namespace Shelf
variable (s : Shelf K V)

theorem modeFitted : s.fitted.byUse = s.byUse := by
  unfold fitted
  split <;> rfl

theorem modeEnter (k : K) (v : V) (pinned : Bool) : (s.enter k v pinned).byUse = s.byUse := by
  unfold enter
  split <;> rfl

theorem modeTouch [BEq K] (k : K) : (s.touch k).byUse = s.byUse := by
  unfold touch
  split <;> rfl

end Shelf

theorem Line.Changes.lifetime [BEq K] {filter : Filter K V} {now : Nat} {l m : Line K V}
    (changes : l.Changes filter now m) : m.lifetime = l.lifetime := by
  induction changes with
  | same => rfl
  | received victims earlier ih => exact (Line.receiveKeeps filter now victims _).2.1.trans ih
  | removed | fitted | purged | emptied => assumption

namespace Plain
variable [BEq K] (filter : Filter K V) (now : Nat) (p : Plain K V)

omit [BEq K] in
theorem modeSettle : (p.settle filter now).plain.shelf.byUse = p.shelf.byUse := p.shelf.modeFitted

theorem modeWithdraw (k : K) : (p.withdraw now k).plain.shelf.byUse = p.shelf.byUse :=
  congrArg Shelf.byUse (p.withdrawKeeps now k).1

theorem modeMark (k : K) : (p.mark k).shelf.byUse = p.shelf.byUse := congrArg Shelf.byUse (p.markKeeps k).1

theorem modeFetch (k : K) : (p.fetch filter now k).plain.shelf.byUse = p.shelf.byUse := by
  have taken := p.modeWithdraw now k
  unfold fetch
  cases p.shelf.find? k with
  | some v => exact p.shelf.modeTouch k
  | none =>
    dsimp only
    cases (p.withdraw now k).answer with
    | none => exact taken
    | some v => exact ((modeSettle filter now _).trans (Shelf.modeEnter _ k v _)).trans taken

theorem modeStore (k : K) (v : V) : (p.store filter now k v).plain.shelf.byUse = p.shelf.byUse := by
  have taken := p.modeWithdraw now k
  unfold store
  cases p.shelf.find? k with
  | some old => exact (p.shelf.replace k v).modeTouch k
  | none => exact ((modeSettle filter now _).trans (Shelf.modeEnter _ k v _)).trans taken

theorem modeStoreAll (entries : List (K × V)) :
    (p.storeAll filter now entries).plain.shelf.byUse = p.shelf.byUse := by
  induction entries generalizing p with
  | nil => rfl
  | cons e rest ih => exact (ih _).trans (p.modeStore filter now e.1 e.2)

theorem modeHold (k : K) : (p.hold now k).plain.shelf.byUse = p.shelf.byUse := by
  have taken := p.modeWithdraw now k
  unfold hold
  cases p.shelf.find? k with
  | some v => exact modeMark _ k
  | none =>
    dsimp only
    cases (p.withdraw now k).answer with
    | none => exact (modeMark _ k).trans taken
    | some v => exact ((modeMark _ k).trans (Shelf.modeEnter _ k v true)).trans taken

theorem modeRelease (k : K) : (p.release filter now k).plain.shelf.byUse = p.shelf.byUse := by
  unfold release
  cases p.shelf.find? k with
  | some v => exact modeSettle filter now _
  | none => rfl

variable [Identity K]

/- Neither the order nor the lifetime is any operation's to change. -/
theorem stepMode (call : Call K V) : (p.step filter now call).plain.shelf.byUse = p.shelf.byUse := by
  have given {op : KeyedOp} {keys : List K} {turn : Turn K V (Reply K V)}
      (same : turn.plain.shelf.byUse = p.shelf.byUse) :
      (p.given op keys turn).plain.shelf.byUse = p.shelf.byUse := by
    unfold Plain.given
    split
    · exact same
    · rfl
  cases call with
  | get k => exact given (p.modeFetch filter now k)
  | put k v => exact given (p.modeStore filter now k v)
  | putAll entries => exact given (p.modeStoreAll filter now entries)
  | remove k => exact given (modeWithdraw now { p with shelf := p.shelf.remove k, pins := without id p.pins k } k)
  | pin k => exact given (p.modeHold now k)
  | unpin k => exact given (p.modeRelease filter now k)
  | isPinned k | containsKey k | peek k => exact given rfl
  | setCacheSize n => exact modeSettle filter now _
  | _ => rfl

theorem runSettings (moves : List (Move K V)) :
    (p.run filter now moves).2.shelf.byUse = p.shelf.byUse ∧
    (p.run filter now moves).2.line.lifetime = p.line.lifetime := by
  induction moves generalizing now p with
  | nil => exact ⟨rfl, rfl⟩
  | cons move rest ih =>
    cases move with
    | wait time => exact ih (now + time) p
    | call call =>
      obtain ⟨mode, lifetime⟩ := ih now (p.step filter now call).plain
      exact ⟨mode.trans (p.stepMode filter now call), lifetime.trans (p.stepChanges filter now call).lifetime⟩

end Plain

namespace Cache

/-- A cache set up and not put to use yet; of its sizes either may have been changed. -/
inductive Unused [BEq K] (filter : Filter K V) (config : Config) : Cache K V → Prop where
  | created {c : Cache K V} (created : create config = .ok c) : Unused filter config c
  | cacheSize {c : Cache K V} (now : Nat) (n : Option Nat) (unused : Unused filter config c) :
      Unused filter config (c.setCacheSize filter now n).cache
  | softSize {c : Cache K V} (n : Option Nat) (unused : Unused filter config c) :
      Unused filter config (c.setSoftSize n).cache

theorem emptyResized [BEq K] (filter : Filter K V) (now : Nat) (byUse : Bool) (size soft lifetime hint n : Option Nat) :
    let c : Cache K V := { empty byUse size soft lifetime with concurrencyHint := hint }
    (c.setCacheSize filter now n).cache = { empty byUse n soft lifetime with concurrencyHint := hint } ∧
    (c.setSoftSize n).cache = { empty byUse size n lifetime with concurrencyHint := hint } := by
  intro c
  constructor
  · have fits : (Recency.empty n byUse : Recency K V).overCapacity = false := by
      cases n <;> simp [Recency.overCapacity, Recency.empty]
    have shed : (c.primary.setCapacity n).shed = ([], Recency.empty n byUse) := Recency.shedFits _ fits
    have form := (setCacheSizeForm filter now c n).2
    rw [shed] at form
    rw [form, List.length_nil, Counters.recordZero]
    exact congrArg
      (fun counters => Cache.mk (Recency.empty n byUse) (Overflow.empty soft lifetime) Pins.empty counters hint)
      (Counters.recordZero {} .reclaim)
  · have trimmed : c.overflow.setBound n = ([], Overflow.empty n lifetime) := by cases n <;> rfl
    have form := (setSoftSizeForm c n).2
    rw [trimmed, List.length_nil, Counters.recordZero] at form
    exact form

theorem unusedForm [BEq K] {filter : Filter K V} {config : Config} {c : Cache K V} (unused : c.Unused filter config) :
    c = { empty config.lru c.cacheSize c.softSize (config.retention.map Span.total) with
      concurrencyHint := c.concurrencyHint } := by
  induction unused with
  | created created =>
    unfold create at created
    cases valid : config.validate with
    | error e => simp [valid, bind, Except.bind] at created
    | ok u =>
      rw [valid] at created
      obtain rfl := Except.ok.inj created
      rfl
  | @cacheSize c now n unused ih =>
    rw [ih, (emptyResized filter now _ _ _ _ _ n).1]
    rfl
  | @softSize c n unused ih =>
    rw [ih, (emptyResized filter 0 _ _ _ _ _ n).2]
    rfl

end Cache

/-- The same reply, with what is pinned in any order. -/
inductive Reply.Resembles : Reply K V → Reply K V → Prop where
  | self (r : Reply K V) : Resembles r r
  | keys {l m : Listing K} (recent : l.recent = m.recent) (pinned : l.pinned.Perm m.pinned)
      (overflow : l.overflow = m.overflow) : Resembles (.keys l) (.keys m)
  | pinned {js ks : List K} (same : js.Perm ks) : Resembles (.pinned js) (.pinned ks)

namespace Session
variable [BEq K] [Identity K]

/-- A session goes on after clearing as one that begins with the other cache: it is not heard clearing, and after
any moves from there on every call is answered, heard and counted as that one's. The pinned keys, and the expired
ones a purge comes upon, are kept in no order and come in any. -/
structure Resets (filter : Filter K V) (s fresh : Session K V) : Prop where
  silent : s.answer filter .clear = .done ∧ s.events filter .clear = []
  answer : ∀ moves (call : Call K V),
    (call = .concurrencyHint → fresh.cache.concurrencyHint = s.cache.concurrencyHint) →
    (((s.after filter .clear).run filter moves).answer filter call).Resembles
      ((fresh.run filter moves).answer filter call)
  events : ∀ moves (call : Call K V),
    call.Hears (((s.after filter .clear).run filter moves).events filter call)
      ((fresh.run filter moves).events filter call)
  counters : ∀ moves,
    ((s.after filter .clear).run filter moves).cache.counters = (fresh.run filter moves).cache.counters

theorem afterClear (filter : Filter K V) (s : Session K V) {fresh : Cache K V} {again : Config}
    (unused : fresh.Unused filter again) (mode : again.lru = s.cache.isLru)
    (lifetime : again.retention.map Span.total = s.cache.overflow.lifetime)
    (sizes : (fresh.cacheSize, fresh.softSize) = (s.cache.cacheSize, s.cache.softSize)) :
    s.after filter .clear = renewed s.cache.overflow.nextGeneration s.cache.concurrencyHint ⟨s.now, fresh⟩ := by
  obtain ⟨cacheSize, softSize⟩ := Prod.mk.inj sizes
  rw [Cache.unusedForm unused, mode, lifetime, cacheSize, softSize]
  rfl

variable [EquivBEq K] {s : Session K V}

theorem runReset (filter : Filter K V) {config again : Config} (started : start config = .ok s)
    (moves : List (Move K V)) {fresh : Cache K V} (unused : fresh.Unused filter again)
    (mode : again.lru = config.lru) (lifetime : again.reclaimAfter = config.reclaimAfter)
    (sizes : (fresh.cacheSize, fresh.softSize) =
      ((s.run filter moves).cache.cacheSize, (s.run filter moves).cache.softSize)) :
    (s.run filter moves).Resets filter ⟨(s.run filter moves).now, fresh⟩ := by
  obtain ⟨tracks, _⟩ := startTracks started
  obtain ⟨used, _⟩ := tracks.run filter moves
  obtain ⟨byUse, span⟩ := (Plain.start config : Plain K V).runSettings filter s.now moves
  have same_mode : again.lru = (s.run filter moves).cache.isLru :=
    mode.trans (byUse.symm.trans (Recency.byUseShown used.shows.primary))
  have same_span : again.retention.map Span.total = (s.run filter moves).cache.overflow.lifetime := by
    have retention : again.retention = config.retention := congrArg (Option.map _) lifetime
    rw [← Overflow.lifetimeShown used.shows.overflow, span, retention]
    rfl
  have cleared := afterClear filter (s.run filter moves) unused same_mode same_span sizes
  refine ⟨⟨rfl, rfl⟩, fun later call told => ?_, fun later call => ?_, fun later => ?_⟩
  · have hint := hintRun filter ⟨(s.run filter moves).now, fresh⟩ later
    rw [cleared, renewedRun, renewedAnswered _ _ _ _ call (fun asked => (hint.trans (told asked)).symm)]
    exact .self _
  · rw [cleared, renewedRun, renewedHeard]
    exact call.hearsSame rfl
  · rw [cleared, renewedRun]
    rfl

/- The used cache has admitted three entries, lost one, pinned a key and been resized; the other is set up with
other sizes and another hint. Both then evict key 1 and bring it back. -/
theorem runResetSmall :
    let config : Config :=
      { lru := true, cacheSize := some 1, softSize := some 1, reclaimAfter := some 1, concurrencyHint := some 4 }
    let again : Config := { lru := true, reclaimAfter := some 1 }
    let filter : Filter Nat Nat := Filter.all
    let moves : List (Move Nat Nat) :=
      [.call (.putAll [(1, 10), (2, 20), (3, 30)]), .call (.pin 3), .wait 7, .call (.setCacheSize (some 0)),
        .call (.put 4 40), .call (.setCacheSize (some 2)), .call (.setSoftSize (some 3))]
    let later : List (Move Nat Nat) :=
      [.call (.putAll [(1, 11), (2, 21), (3, 31)]), .wait 5, .call (.get 1), .call .keys]
    let s : Session Nat Nat := ⟨0, { Cache.empty true (some 1) (some 1) (some 1000000) with concurrencyHint := some 4 }⟩
    let created : Cache Nat Nat := .empty true (some 1000) none (some 1000000)
    let fresh := ((created.setCacheSize filter 0 (some 2)).cache.setSoftSize (some 3)).cache
    (start config = .ok s ∧ Cache.create again = .ok created ∧ fresh.Unused filter again ∧
      (s.run filter moves).cache.overflow.nextGeneration = 3 ∧
      (fresh.cacheSize, fresh.softSize) = ((s.run filter moves).cache.cacheSize, (s.run filter moves).cache.softSize)) ∧
    (s.run filter moves).Resets filter ⟨(s.run filter moves).now, fresh⟩ ∧
    ((s.run filter moves).after filter .clear).trace filter later =
      [(.done, [.evicted 1 11]), (.done, []), (.value (some 11), [.evicted 2 21]), (.keys ⟨[1, 3], [], [2]⟩, [])] := by
  intro config again filter moves later s created fresh
  have started : start config = .ok s := rfl
  have set_up : Cache.create again = .ok created := rfl
  have unused : fresh.Unused filter again := .softSize (some 3) (.cacheSize 0 (some 2) (.created set_up))
  have sizes : (fresh.cacheSize, fresh.softSize) =
      ((s.run filter moves).cache.cacheSize, (s.run filter moves).cache.softSize) := by decide
  have resets := runReset filter started moves unused rfl rfl sizes
  exact ⟨⟨started, set_up, unused, by decide, sizes⟩, resets, by decide⟩

end Session
end TieredCache
