import TieredCache.Proofs.Alike
import TieredCache.Proofs.Ledger

/-! Purging is not to be seen. Two runs that differ in their purges only answer every other call the
same, evict the same and count the same, but for the losses; what they report differs in expired keys
alone, and of those in when and not in whether: what one has reported more since the last clear the other
still holds. -/
namespace TieredCache
open Keyed (Apart find without copies)
variable {K V A : Type}

def Call.purges : Call K V → Bool
  | .purge => true
  | _ => false

/- Only a purge is free in the order of what is heard. -/
theorem Call.Hears.exactly {call : Call K V} {first second : List (Event K V)} (hears : call.Hears first second)
    (other : call.purges = false) : first = second := by
  cases call with
  | purge => exact Bool.noConfusion other
  | _ => exact hears

def Move.purges : Move K V → Bool
  | .call made => made.purges
  | .wait _ => false

def unpurged (moves : List (Move K V)) : List (Move K V) := moves.filter (fun move => !move.purges)

inductive PurgesApart : List (Move K V) → List (Move K V) → Prop where
  | nil : PurgesApart [] []
  | both {move : Move K V} {xs ys : List (Move K V)} (other : move.purges = false)
      (rest : PurgesApart xs ys) : PurgesApart (move :: xs) (move :: ys)
  | first {xs ys : List (Move K V)} (rest : PurgesApart xs ys) : PurgesApart (.call .purge :: xs) ys
  | second {xs ys : List (Move K V)} (rest : PurgesApart xs ys) : PurgesApart xs (.call .purge :: ys)

theorem Move.purgesOnly {move : Move K V} (purges : move.purges = true) : move = .call .purge := by
  cases move with
  | wait time => exact Bool.noConfusion purges
  | call made =>
    cases made with
    | purge => rfl
    | _ => exact Bool.noConfusion purges

theorem unpurgedApart {first second : List (Move K V)} (same : unpurged first = unpurged second) :
    PurgesApart first second := by
  induction first generalizing second with
  | nil =>
    induction second with
    | nil => exact .nil
    | cons move rest ih =>
      cases purges : move.purges with
      | true =>
        rw [Move.purgesOnly purges] at same ⊢
        exact .second (ih same)
      | false => simp [unpurged, purges] at same
  | cons move rest ih =>
    cases purges : move.purges with
    | true =>
      rw [Move.purgesOnly purges] at same ⊢
      exact .first (ih same)
    | false =>
      induction second with
      | nil => simp [unpurged, purges] at same
      | cons other more also =>
        cases skips : other.purges with
        | true =>
          rw [Move.purgesOnly skips] at same ⊢
          exact .second (also same)
        | false =>
          have heads : move = other ∧ unpurged rest = unpurged more := by
            simpa [unpurged, purges, skips] using same
          rw [← heads.1]
          exact .both purges (ih heads.2)

variable [BEq K]

/-- The overflow tier still holds the key, but the entry has expired. -/
def Cache.Late (c : Cache K V) (now : Nat) (k : K) : Prop :=
  c.overflow.held.contains k = true ∧ c.overflow.contains now k = false

/-- Two calls, each with the session it was made in, that a caller cannot tell apart. -/
structure Unseen (a b : Session K V × Outcome K V (Reply K V)) : Prop where
  answer : a.2.answer.Same b.2.answer
  events : SameBut (Event.Reports (a.1.cache.Late a.1.now)) (Event.Reports (b.1.cache.Late b.1.now))
    a.2.events b.2.events
  counters : a.2.cache.counters.unreclaimed = b.2.cache.counters.unreclaimed

/-- How often a key was reported since the last clear, after one call more. -/
def Call.tally (call : Call K V) (k : K) (events : List (Event K V)) (n : Nat) : Nat :=
  match call with
  | .clear => 0
  | _ => n + heard k events

theorem Call.tallyFilled {call : Call K V} (stays : call ≠ .clear) (k : K) (events : List (Event K V)) (n : Nat) :
    call.tally k events n = n + heard k events := by
  cases call with
  | clear => exact absurd rfl stays
  | _ => rfl

namespace Session
variable [Identity K]

/-- The calls of a session that are no purges, each with the session it is made in. -/
def turns (filter : Filter K V) (s : Session K V) :
    List (Move K V) → List (Session K V × Outcome K V (Reply K V))
  | [] => []
  | .wait time :: rest => turns filter { s with now := s.now + time } rest
  | .call call :: rest =>
      let outcome := s.cache.step filter s.now call
      let later := turns filter { s with cache := outcome.cache } rest
      if call.purges then later else (s, outcome) :: later

/-- The reports of a key in a session, counted on from those made before. -/
def reports (filter : Filter K V) (k : K) (n : Nat) (s : Session K V) : List (Move K V) → Nat
  | [] => n
  | .wait time :: rest => reports filter k n { s with now := s.now + time } rest
  | .call call :: rest =>
      let outcome := s.cache.step filter s.now call
      reports filter k (call.tally k outcome.events n) { s with cache := outcome.cache } rest

end Session

namespace Plain

/-- What one operation lost more of a key than another, it had more of. -/
def Even (p q : Plain K V) (t u : Turn K V A) : Prop :=
  ∀ k, t.plain.stock k + heard k t.events + q.stock k = u.plain.stock k + heard k u.events + p.stock k

variable [Identity K] {now : Nat} {p q : Plain K V}

theorem Sound.purgeTallied (sound : p.Sound) (now : Nat) (k : K) (m : Nat) :
    m + heard k (p.purge now).events + (p.purge now).plain.stock k = m + p.stock k := by
  have balance := (purgeLawful sound now).balance k
  omega

theorem Lawful.even {made gone : K → Nat} {t u : Turn K V A} (first : p.Lawful t made gone)
    (second : q.Lawful u made gone) : p.Even q t u := by
  intro k
  have one := first.balance k
  have two := second.balance k
  omega

omit [Identity K] in
theorem evenIdle (p q : Plain K V) (a : A) :
    p.Even q { answer := a, events := [], plain := p } { answer := a, events := [], plain := q } := by
  intro k
  show p.stock k + 0 + q.stock k = q.stock k + 0 + p.stock k
  omega

theorem evenGiven {op : KeyedOp} {keys : List K} {t u : Turn K V (Reply K V)}
    (even : (∀ k ∈ keys, Identity.valid k = true) → p.Even q t u) :
    p.Even q (p.given op keys t) (q.given op keys u) := by
  unfold given
  cases valid : keys.all Identity.valid with
  | false => exact evenIdle p q _
  | true => exact even (List.all_eq_true.mp valid)

namespace Twins
variable [EquivBEq K]

theorem evenStore (twins : Twins now p q) (filter : Filter K V) {k : K} (valid : Identity.valid k = true)
    (v : V) : p.Even q (p.store filter now k v) (q.store filter now k v) := by
  have second := storeLawful twins.second filter now valid v
  rw [← (twins.store filter k v).answer] at second
  exact (storeLawful twins.first filter now valid v).even second

theorem evenStoreAll (twins : Twins now p q) (filter : Filter K V) {entries : List (K × V)}
    (valid : ∀ e ∈ entries, Identity.valid e.1 = true) :
    p.Even q (p.storeAll filter now entries) (q.storeAll filter now entries) := by
  induction entries generalizing p q with
  | nil => exact evenIdle p q ()
  | cons e rest ih =>
    have at_e := valid e (by simp)
    intro k
    have here := twins.evenStore filter at_e e.2 k
    have others := ih (twins.stored filter at_e e.2) (fun d mem => valid d (by simp [mem])) k
    unfold Plain.storeAll
    dsimp only
    rw [heardAppend, heardAppend]
    omega

theorem evenDiscard (twins : Twins now p q) (k : K) : p.Even q (p.discard now k) (q.discard now k) := by
  have second := discardLawful twins.second now k
  rw [← (twins.discard k).answer] at second
  exact (discardLawful twins.first now k).even second

theorem evenStep (twins : Twins now p q) (filter : Filter K V) {call : Call K V} (stays : call ≠ .clear)
    (other : call.purges = false) : p.Even q (p.step filter now call) (q.step filter now call) := by
  cases call with
  | get k =>
    refine evenGiven (fun valid => ?_)
    have at_k := valid k (by simp)
    exact (fetchLawful twins.first filter now at_k).even (fetchLawful twins.second filter now at_k)
  | put k v => exact evenGiven (fun valid => twins.evenStore filter (valid k (by simp)) v)
  | putAll entries =>
    refine evenGiven (fun valid => ?_)
    exact twins.evenStoreAll filter (fun e mem => valid e.1 (List.mem_map_of_mem mem))
  | remove k => exact evenGiven (fun _ => twins.evenDiscard k)
  | pin k =>
    refine evenGiven (fun valid => ?_)
    have at_k := valid k (by simp)
    exact (holdLawful twins.first now at_k).even (holdLawful twins.second now at_k)
  | unpin k =>
    exact evenGiven (fun _ => (releaseLawful twins.first filter now k).even
      (releaseLawful twins.second filter now k))
  | isPinned k => exact evenGiven (fun _ => evenIdle p q _)
  | containsKey k => exact evenGiven (fun _ => evenIdle p q _)
  | peek k => exact evenGiven (fun _ => evenIdle p q _)
  | clear => exact absurd rfl stays
  | setCacheSize n =>
    exact (setCacheSizeLawful twins.first filter now n).even (setCacheSizeLawful twins.second filter now n)
  | setSoftSize n => exact (setSoftSizeLawful twins.first n).even (setSoftSizeLawful twins.second n)
  | purge => exact Bool.noConfusion other
  | resetCounters => exact fun k => evenIdle p q (Reply.done : Reply K V) k
  | _ => exact evenIdle p q _

/- A clear leaves nothing in stock and counts from nothing again, in the one run as in the other. -/
theorem tallied (twins : Twins now p q) (filter : Filter K V) {call : Call K V} (other : call.purges = false)
    {k : K} {m n : Nat} (even : m + p.stock k = n + q.stock k) :
    call.tally k (p.step filter now call).events m + (p.step filter now call).plain.stock k =
      call.tally k (q.step filter now call).events n + (q.step filter now call).plain.stock k := by
  by_cases cleared : call = .clear
  · rw [cleared]
    rfl
  · have step := twins.evenStep filter cleared other k
    rw [Call.tallyFilled cleared, Call.tallyFilled cleared]
    omega

theorem stepSame (twins : Twins now p q) (filter : Filter K V) {call : Call K V}
    (other : call.purges = false) :
    (p.step filter now call).answer.Same (q.step filter now call).answer ∧
    SameBut (Event.Reports (p.line.late now)) (Event.Reports (q.line.late now))
      (p.step filter now call).events (q.step filter now call).events ∧
    Twins now (p.step filter now call).plain (q.step filter now call).plain := by
  have first := twins.firstTimely.changes (p.stepChanges filter now call)
  have second := twins.secondTimely.changes (q.stepChanges filter now call)
  have sound := (twins.first.step filter now call).1
  have also := (twins.second.step filter now call).1
  by_cases counters : call = .counters
  · rw [counters]
    exact ⟨.counters twins.alike.counters, SameBut.self [], twins⟩
  · have purge : call ≠ .purge := by
      rintro rfl
      exact Bool.noConfusion other
    obtain ⟨answer, events, plain⟩ := twins.step filter purge counters
    exact ⟨answer ▸ .self _, events, plain, sound, also, first, second⟩

omit [EquivBEq K] in
theorem later (twins : Twins now p q) (time : Nat) : Twins (now + time) p q :=
  ⟨twins.alike.later time, twins.first, twins.second, twins.firstTimely.later time,
    twins.secondTimely.later time⟩

omit [EquivBEq K] in
theorem symm (twins : Twins now p q) : Twins now q p :=
  ⟨twins.alike.symm, twins.second, twins.first, twins.secondTimely, twins.firstTimely⟩

omit [EquivBEq K] in
theorem purged (twins : Twins now p q) : Twins now (p.purge now).plain q := by
  have timely : (p.purge now).plain.line.Timely now := twins.firstTimely.fewer List.filter_sublist rfl
  exact ⟨purgeAlike twins.alike, (purgeLawful twins.first now).sound, twins.second, timely,
    twins.secondTimely⟩

end Twins
end Plain

namespace Session
variable [EquivBEq K] [Identity K] {s r : Session K V} {p q : Plain K V}

omit [BEq K] [EquivBEq K] [Identity K] in
theorem startTimely {config : Config} (started : start config = .ok s) :
    (Plain.start config : Plain K V).line.Timely s.now := by
  have valid : config.validate = .ok () := by
    unfold start Cache.create at started
    cases valid : config.validate with
    | error e => simp [valid, bind, Except.bind] at started
    | ok u => rfl
  refine ⟨List.Pairwise.nil, fun a mem => absurd mem List.not_mem_nil, fun zero => ?_⟩
  obtain ⟨span, retained, none⟩ := Option.map_eq_some_iff.mp zero
  obtain ⟨ms, after, rfl⟩ := Option.map_eq_some_iff.mp retained
  rw [Span.totalOfMilliseconds] at none
  have nothing : ms.toNat = 0 := by omega
  have instant : ms = 0 := UInt64.toNat_inj.mp nothing
  exact ((config.validateOk).mp valid).2 (after.trans (congrArg some instant))

theorem Tracks.reached (tracks : s.Tracks p) (timely : p.line.Timely s.now) (filter : Filter K V)
    (moves : List (Move K V)) :
    ∃ q, (s.run filter moves).Tracks q ∧ q.line.Timely (s.run filter moves).now := by
  induction moves generalizing s p with
  | nil => exact ⟨p, tracks, timely⟩
  | cons move rest ih =>
    cases move with
    | wait time => exact ih (tracks.waited time) (timely.later time)
    | call call => exact ih (tracks.call filter s.now call) (timely.changes (p.stepChanges filter s.now call))

/- A reachable state shows a plain cache, with a line in order of time. -/
theorem runReached (filter : Filter K V) {config : Config} (started : start config = .ok s)
    (moves : List (Move K V)) :
    ∃ p, (s.run filter moves).Tracks p ∧ p.line.Timely (s.run filter moves).now :=
  (startTracks started).1.reached (startTimely started) filter moves

theorem Tracks.late (tracks : s.Tracks p) (now : Nat) (k : K) (late : p.line.late now k) :
    s.cache.Late now k := by
  obtain ⟨a, waits, at_k, expired⟩ := late
  have apart := tracks.sound.single.apart.2
  have found := Keyed.findOf apart waits at_k
  have held := Overflow.containsShown tracks.shows.overflow k
  have looked := Overflow.lookupShown tracks.shows.overflow now k
  have gone : p.line.lookup now k = none := by
    unfold Line.lookup Line.live
    rw [Keyed.findFilter apart, found]
    simp [Option.filter, Line.isLive, expired]
  rw [found] at held
  refine ⟨held, ?_⟩
  rw [Overflow.contains, looked, gone]
  rfl

theorem Tracks.tally (tracks : s.Tracks p) (filter : Filter K V) (call : Call K V) (k : K) (n : Nat) :
    call.tally k (s.cache.step filter s.now call).events n =
      call.tally k (p.step filter s.now call).events n := by
  have events := (tracks.shows.step tracks.sound filter s.now call).events.perm
  have same : heard k (s.cache.step filter s.now call).events = heard k (p.step filter s.now call).events :=
    events.countP_eq _
  unfold Call.tally
  rw [same]

theorem Tracks.unseen (one : s.Tracks p) (two : r.Tracks q) (twins : p.Twins s.now q)
    (together : r.now = s.now) (filter : Filter K V) {call : Call K V} (other : call.purges = false) :
    Unseen (s, s.cache.step filter s.now call) (r, r.cache.step filter r.now call) := by
  obtain ⟨answer, events, plain⟩ := twins.stepSame filter other
  rw [together]
  have first := one.shows.step one.sound filter s.now call
  have second := two.shows.step two.sound filter s.now call
  refine ⟨first.answer.same.trans (answer.trans second.answer.same.symm), ?_, ?_⟩
  · dsimp only
    rw [first.events.exactly other, second.events.exactly other, together]
    exact events.mono (Event.reportsMono (one.late s.now)) (Event.reportsMono (two.late s.now))
  · dsimp only
    rw [first.shows.counters, second.shows.counters]
    exact plain.alike.counters

theorem Tracks.unpurged {first second : List (Move K V)} (apart : PurgesApart first second)
    (one : s.Tracks p) (two : r.Tracks q) (twins : p.Twins s.now q) (together : r.now = s.now)
    (filter : Filter K V) :
    List.Forall₂ Unseen (s.turns filter first) (r.turns filter second) ∧
    ∀ k m n, m + p.stock k = n + q.stock k →
      s.reports filter k m first + (p.run filter s.now first).2.stock k =
        r.reports filter k n second + (q.run filter r.now second).2.stock k := by
  induction apart generalizing s r p q with
  | nil => exact ⟨.nil, fun _ _ _ even => even⟩
  | @both move xs ys other rest ih =>
    obtain ⟨_, d⟩ := r
    obtain rfl := together
    cases move with
    | wait time => exact ih (one.waited time) (two.waited time) (twins.later time) rfl
    | call call =>
      have other : call.purges = false := other
      obtain ⟨_, _, after⟩ := twins.stepSame filter other
      obtain ⟨turns, later⟩ := ih (one.call filter s.now call) (two.call filter s.now call) after rfl
      constructor
      · unfold Session.turns
        simp only [other, Bool.false_eq_true, if_false]
        exact .cons (one.unseen two twins rfl filter other) turns
      · intro k m n even
        refine later k _ _ ?_
        rw [one.tally, two.tally]
        exact twins.tallied filter other even
  | @first xs ys rest ih =>
    obtain ⟨turns, later⟩ := ih (one.call filter s.now .purge) two twins.purged together
    refine ⟨turns, fun k m n even => later k _ n ?_⟩
    rw [one.tally]
    exact (one.sound.purgeTallied s.now k m).trans even
  | @second xs ys rest ih =>
    obtain ⟨_, d⟩ := r
    obtain rfl := together
    obtain ⟨turns, later⟩ := ih one (two.call filter s.now .purge) twins.symm.purged.symm rfl
    refine ⟨turns, fun k m n even => later k m _ ?_⟩
    rw [two.tally]
    exact even.trans (two.sound.purgeTallied s.now k n).symm

theorem runUnpurged (filter : Filter K V) {config : Config} (started : start config = .ok s)
    {first second : List (Move K V)} (same : unpurged first = unpurged second) :
    List.Forall₂ Unseen (s.turns filter first) (s.turns filter second) ∧
    ∀ k, s.reports filter k 0 first + (if (s.run filter first).cache.holdsEither k then 1 else 0) =
      s.reports filter k 0 second + (if (s.run filter second).cache.holdsEither k then 1 else 0) := by
  obtain ⟨tracks, _⟩ := startTracks started
  have timely := startTimely (K := K) (V := V) started
  have twins : (Plain.start config).Twins s.now (Plain.start config) :=
    ⟨Plain.Alike.refl s.now _, tracks.sound, tracks.sound, timely, timely⟩
  obtain ⟨turns, balance⟩ := tracks.unpurged (unpurgedApart same) tracks twins rfl filter
  refine ⟨turns, fun k => ?_⟩
  obtain ⟨one, _⟩ := tracks.run filter first
  obtain ⟨two, _⟩ := tracks.run filter second
  rw [← one.shows.heldStock one.sound.single, ← two.shows.heldStock two.sound.single]
  exact balance k 0 0 rfl

/- One run purges, the other never. What the first purge reports of key 2 the other run forgets with the clear;
after it, key 1 is reported by a purge there and by the get here, and key 2, which nobody asks for, by the last
purge there and not at all here. -/
theorem runUnpurgedSmall :
    let config : Config := { cacheSize := some 1, softSize := some 2, reclaimAfter := some 1 }
    let filter : Filter Nat Nat := Filter.all
    let first : List (Move Nat Nat) :=
      [.call (.put 2 21), .call (.put 1 11), .wait 1000000, .call .purge, .call .clear, .call (.put 1 10),
        .call (.put 2 20), .wait 1000000, .call .purge, .call (.get 1), .call (.put 3 30), .wait 1000000,
        .call .purge, .call .keys]
    let second : List (Move Nat Nat) :=
      [.call (.put 2 21), .call (.put 1 11), .wait 1000000, .call .clear, .call (.put 1 10), .call (.put 2 20),
        .wait 1000000, .call (.get 1), .call (.put 3 30), .wait 1000000, .call .keys]
    let s : Session Nat Nat := ⟨0, .empty false (some 1) (some 2) (some 1000000)⟩
    (start config = .ok s ∧ unpurged first = unpurged second ∧
      s.reports filter 2 0 first = 1 ∧ s.reports filter 2 0 second = 0) ∧
    List.Forall₂ Unseen (s.turns filter first) (s.turns filter second) ∧
    ∀ k, s.reports filter k 0 first + (if (s.run filter first).cache.holdsEither k then 1 else 0) =
      s.reports filter k 0 second + (if (s.run filter second).cache.holdsEither k then 1 else 0) := by
  intro config filter first second s
  have started : start config = .ok s := rfl
  have same : unpurged first = unpurged second := by decide
  exact ⟨⟨started, same, by decide, by decide⟩, runUnpurged filter started same⟩

end Session
end TieredCache
