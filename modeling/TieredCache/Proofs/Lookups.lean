import TieredCache.Session

/-! How often a session was asked for a value and had it. A get is one lookup, answered or not, and
nothing else is; clearing the cache and resetting its counters start over. The counters of the cache
are these numbers, as far as a machine word goes. -/
namespace TieredCache
variable {K V : Type}

structure Lookups where
  hits : Nat := 0
  misses : Nat := 0
  deriving DecidableEq, Repr

namespace Lookups

def look (n : Lookups) (found : Bool) : Lookups :=
  if found then { n with hits := n.hits + 1 } else { n with misses := n.misses + 1 }

def after (n : Lookups) : Call K V → Reply K V → Lookups
  | .get _, .value answer => n.look answer.isSome
  | .clear, _ => {}
  | .resetCounters, _ => {}
  | _, _ => n

structure Counts (n : Lookups) (c : Counters) : Prop where
  hits : c.hits = .ofNat n.hits
  misses : c.misses = .ofNat n.misses

variable {n : Lookups} {c d : Counters}

theorem Counts.zero : Counts {} {} := ⟨rfl, rfl⟩

theorem Counts.same (counts : n.Counts c) (hits : d.hits = c.hits) (misses : d.misses = c.misses) :
    n.Counts d := ⟨hits.trans counts.hits, misses.trans counts.misses⟩

theorem Counts.look (counts : n.Counts c) (found : Bool) :
    (n.look found).Counts (c.record (if found then .hit else .miss) 1) := by
  obtain ⟨hits, misses⟩ := counts
  cases found with
  | true => exact ⟨by simp [Counters.record, Lookups.look, hits, UInt64.ofNat_add], misses⟩
  | false => exact ⟨hits, by simp [Counters.record, Lookups.look, misses, UInt64.ofNat_add]⟩

end Lookups

/-- The lookups of a session, counted on from those made before. -/
def Session.lookups [BEq K] [Identity K] (filter : Filter K V) (n : Lookups) (s : Session K V) :
    List (Move K V) → Lookups
  | [] => n
  | .wait time :: rest => { s with now := s.now + time : Session K V }.lookups filter n rest
  | .call call :: rest =>
      let outcome := s.cache.step filter s.now call
      { s with cache := outcome.cache : Session K V }.lookups filter (n.after call outcome.answer) rest

namespace Cache
variable [BEq K] {n : Lookups} {c : Cache K V}

theorem withdrawCounted (now : Nat) (k : K) (counts : n.Counts c.counters) :
    n.Counts (c.withdraw now k).cache.counters := by
  unfold Cache.withdraw
  dsimp only
  split
  · exact counts
  · exact counts.same rfl rfl
  · exact counts

theorem fetchCounted (filter : Filter K V) (now : Nat) (k : K) (counts : n.Counts c.counters) :
    (n.look (c.fetch filter now k).answer.isSome).Counts (c.fetch filter now k).cache.counters := by
  have taken := withdrawCounted now k counts
  unfold Cache.fetch
  dsimp only
  cases (c.primary.get k).1 with
  | some v => exact counts.look true
  | none =>
    dsimp only
    cases (c.withdraw now k).answer with
    | none => exact taken.look false
    | some v => exact (taken.look true).same rfl rfl

theorem storeCounted (filter : Filter K V) (now : Nat) (k : K) (v : V) (counts : n.Counts c.counters) :
    n.Counts (c.store filter now k v).cache.counters := by
  have taken := withdrawCounted now k counts
  unfold Cache.store
  split
  · exact counts
  · exact taken.same rfl rfl

theorem storeAllCounted (filter : Filter K V) (now : Nat) (entries : List (K × V))
    (counts : n.Counts c.counters) : n.Counts (c.storeAll filter now entries).cache.counters := by
  induction entries generalizing c with
  | nil => exact counts
  | cons e rest ih => exact ih (storeCounted filter now e.1 e.2 counts)

theorem holdCounted (now : Nat) (k : K) (counts : n.Counts c.counters) :
    n.Counts (c.hold now k).cache.counters := by
  have taken := withdrawCounted now k counts
  unfold Cache.hold
  dsimp only
  cases (c.primary.setPinned k true).1 with
  | true => exact counts
  | false =>
    simp only [Bool.false_eq_true, if_false]
    cases (c.withdraw now k).answer with
    | none => exact taken
    | some v => exact taken.same rfl rfl

theorem releaseCounted (filter : Filter K V) (now : Nat) (k : K) (counts : n.Counts c.counters) :
    n.Counts (c.release filter now k).cache.counters := by
  unfold Cache.release
  dsimp only
  split
  · exact counts.same rfl rfl
  · exact counts

variable [Identity K]

omit [BEq K] in
theorem checked {A : Type} (c : Cache K V) (op : KeyedOp) (k : K) (o : Outcome K V A) (say : A → Reply K V) :
    c.replied say (do check op k; return o) =
      if Identity.valid k then { o with answer := say o.answer }
      else { answer := .refused (.keyless op), events := [], cache := c } := by
  unfold check
  cases Identity.valid k <;> rfl

omit [BEq K] in
theorem checkedCounted {A : Type} (op : KeyedOp) (k : K) {o : Outcome K V A} (say : A → Reply K V)
    (counts : n.Counts c.counters) (kept : n.Counts o.cache.counters) :
    n.Counts (c.replied say (do check op k; return o)).cache.counters := by
  rw [checked]
  cases Identity.valid k with
  | false => exact counts
  | true => exact kept

theorem stepCounted (filter : Filter K V) (now : Nat) (call : Call K V) (counts : n.Counts c.counters) :
    (n.after call (c.step filter now call).answer).Counts (c.step filter now call).cache.counters := by
  cases call with
  | get k =>
    have fetched := fetchCounted filter now k counts
    simp only [Cache.step, Cache.get, checked]
    cases Identity.valid k with
    | false => exact counts
    | true => exact fetched
  | put k v => exact checkedCounted .put k .value counts (storeCounted filter now k v counts)
  | putAll entries =>
    have stored := storeAllCounted filter now entries counts
    simp only [Cache.step, Cache.putAll]
    cases checkAll .putAll (entries.map Prod.fst) with
    | error e => exact counts
    | ok _ => exact stored
  | remove k =>
    let removed : Cache K V := { c with primary := (c.primary.remove k).2, pins := (c.pins.drop k).2 }
    have taken : n.Counts (removed.withdraw now k).cache.counters := withdrawCounted now k counts
    exact checkedCounted .remove k .value counts taken
  | pin k => exact checkedCounted .pin k .flag counts (holdCounted now k counts)
  | unpin k => exact checkedCounted .unpin k .flag counts (releaseCounted filter now k counts)
  | clear => exact Lookups.Counts.zero
  | resetCounters => exact Lookups.Counts.zero
  | setCacheSize m => exact counts.same rfl rfl
  | setSoftSize m => exact counts.same rfl rfl
  | purge => exact counts.same rfl rfl
  | _ => exact counts

end Cache

theorem Session.startCounted {config : Config} {s : Session K V} (started : Session.start config = .ok s) :
    Lookups.Counts {} s.cache.counters := by
  unfold Session.start Cache.create at started
  cases valid : config.validate with
  | error e => simp [valid, bind, Except.bind] at started
  | ok _ =>
    rw [valid] at started
    obtain rfl := Except.ok.inj started
    exact Lookups.Counts.zero

theorem Session.runCounted [BEq K] [Identity K] (filter : Filter K V) {n : Lookups} {s : Session K V}
    (counts : n.Counts s.cache.counters) (moves : List (Move K V)) :
    (s.lookups filter n moves).Counts (s.run filter moves).cache.counters := by
  induction moves generalizing n s with
  | nil => exact counts
  | cons move rest ih =>
    cases move with
    | wait time => exact ih (s := { s with now := s.now + time }) counts
    | call call => exact ih (Cache.stepCounted filter s.now call counts)

end TieredCache
