import TieredCache.Proofs.Simulation

/-! Every run of the cache is a run of the plain lists. Call by call the two answer alike and are
heard alike, and what they hold at the end is the same; where the cache keeps no order, in the
pinned entries and in the reports of an expiry sweep, they agree up to order. -/
namespace TieredCache
open Keyed (Apart find without)
variable {K V A : Type} [BEq K]

def Reply.Agrees : Reply K V → Reply K V → Prop
  | .keys l, .keys m => l.recent = m.recent ∧ l.pinned.Perm m.pinned ∧ l.overflow = m.overflow
  | a, b => a = b

def Call.Hears (call : Call K V) (first second : List (Event K V)) : Prop :=
  match call with
  | .purge => first.Perm second
  | _ => first = second

structure Call.Mirrors (call : Call K V) (o : Outcome K V (Reply K V)) (t : Turn K V (Reply K V)) : Prop where
  answer : o.answer.Agrees t.answer
  events : call.Hears o.events t.events
  shows : o.cache.Shows t.plain

omit [BEq K] in
theorem Call.Hears.perm {call : Call K V} {first second : List (Event K V)}
    (hears : call.Hears first second) : first.Perm second := by
  cases call with
  | purge => exact hears
  | _ => exact List.Perm.of_eq hears

omit [BEq K] in
theorem Call.hearsSame (call : Call K V) {first second : List (Event K V)} (same : first = second) :
    call.Hears first second := by
  cases call with
  | purge => exact List.Perm.of_eq same
  | _ => exact same

omit [BEq K] in
theorem Reply.agreesSelf (r : Reply K V) : r.Agrees r := by
  cases r with
  | keys l => exact ⟨rfl, List.Perm.refl _, rfl⟩
  | _ => rfl

theorem Call.mirrored (call : Call K V) {o : Outcome K V (Reply K V)} {t : Turn K V (Reply K V)}
    (follows : o.Follows t) : call.Mirrors o t :=
  ⟨follows.answer ▸ o.answer.agreesSelf, call.hearsSame follows.events, follows.shows⟩

namespace Cache
variable [Identity K] {c : Cache K V} {p : Plain K V}

theorem Shows.replied (shows : c.Shows p) (op : KeyedOp) (k : K) {o : Outcome K V A} {t : Turn K V A}
    (say : A → Reply K V) (follows : Identity.valid k = true → o.Follows t) :
    (c.replied say (do check op k; return o)).Follows
      (p.given op [k] { t with answer := say t.answer }) := by
  unfold check Plain.given
  cases valid : Identity.valid k with
  | false =>
    simp only [List.all_cons, valid, Bool.false_and, Bool.false_eq_true, if_false]
    exact ⟨rfl, rfl, shows⟩
  | true =>
    simp only [List.all_cons, valid, Bool.true_and, List.all_nil, if_true]
    obtain ⟨answer, events, shown⟩ := follows valid
    exact ⟨congrArg say answer, events, shown⟩

theorem Shows.asked (shows : c.Shows p) (op : KeyedOp) (k : K) {a b : A} (say : A → Reply K V)
    (same : a = b) :
    (c.observed (.of say (do check op k; return a))).Follows (p.given op [k] (p.answering (say b))) := by
  unfold check Plain.given
  cases valid : Identity.valid k with
  | false =>
    simp only [List.all_cons, valid, Bool.false_and, Bool.false_eq_true, if_false]
    exact ⟨rfl, rfl, shows⟩
  | true =>
    simp only [List.all_cons, valid, Bool.true_and, List.all_nil, if_true]
    exact ⟨congrArg say same, rfl, shows⟩

omit [Identity K] in
theorem Shows.observed (shows : c.Shows p) {a b : Reply K V} (same : a = b) :
    (c.observed a).Follows (p.answering b) := ⟨same, rfl, shows⟩

omit [BEq K] in
theorem checkAllEq (op : KeyedOp) (keys : List K) :
    checkAll op keys = if keys.all Identity.valid then .ok () else .error (.keyless op) := by
  induction keys with
  | nil => rfl
  | cons k rest ih =>
    unfold checkAll check
    cases valid : Identity.valid k with
    | false => simp [valid, bind, Except.bind]
    | true => simpa [valid, bind, Except.bind] using ih

variable [EquivBEq K]

theorem Shows.putAll (shows : c.Shows p) (sound : p.Sound) (filter : Filter K V) (now : Nat)
    (entries : List (K × V)) :
    (c.replied (fun _ => .done) (c.putAll filter now entries)).Follows
      (p.given .putAll (entries.map Prod.fst) { p.storeAll filter now entries with answer := .done }) := by
  unfold Cache.putAll Plain.given
  rw [checkAllEq]
  cases valid : (entries.map Prod.fst).all Identity.valid with
  | false => exact ⟨rfl, rfl, shows⟩
  | true =>
    have each : ∀ e ∈ entries, Identity.valid e.1 = true := by simpa using valid
    obtain ⟨_, events, shown⟩ := shows.storeAll sound filter now each
    exact ⟨rfl, events, shown⟩

theorem Shows.step (shows : c.Shows p) (sound : p.Sound) (filter : Filter K V) (now : Nat)
    (call : Call K V) : call.Mirrors (c.step filter now call) (p.step filter now call) := by
  cases call with
  | get k => exact Call.mirrored _ (shows.replied .get k .value (shows.fetch sound filter now))
  | put k v =>
    exact Call.mirrored _ (shows.replied .put k .value (fun valid => shows.store sound filter now valid v))
  | putAll entries => exact Call.mirrored _ (shows.putAll sound filter now entries)
  | remove k => exact Call.mirrored _ (shows.replied .remove k .value (fun _ => shows.discard now k))
  | pin k => exact Call.mirrored _ (shows.replied .pin k .flag (fun _ => shows.hold now k))
  | unpin k =>
    exact Call.mirrored _ (shows.replied .unpin k .flag (fun _ => shows.release sound filter now k))
  | isPinned k => exact Call.mirrored _ (shows.asked .isPinned k .flag (shows.pinned k))
  | containsKey k => exact Call.mirrored _ (shows.asked .containsKey k .flag (shows.holds now k).1)
  | peek k => exact Call.mirrored _ (shows.asked .peek k .value (shows.holds now k).2)
  | size => exact Call.mirrored _ (shows.observed (congrArg Reply.count (shows.size now)))
  | isEmpty =>
    exact Call.mirrored _ (shows.observed (congrArg (fun n => Reply.flag (n == 0)) (shows.size now)))
  | keys => exact ⟨shows.listing now, rfl, shows⟩
  | pinnedKeys => exact Call.mirrored _ (shows.observed (congrArg Reply.pinned shows.pins))
  | clear => exact Call.mirrored _ ⟨rfl, rfl, shows.clear⟩
  | setCacheSize n =>
    obtain ⟨_, events, shown⟩ := shows.setCacheSize sound.single filter now n
    exact Call.mirrored _ ⟨rfl, events, shown⟩
  | setSoftSize n =>
    obtain ⟨_, events, shown⟩ := shows.setSoftSize n
    exact Call.mirrored _ ⟨rfl, events, shown⟩
  | purge =>
    obtain ⟨answer, events, shown⟩ := shows.purge now
    exact ⟨congrArg Reply.count answer, events, shown⟩
  | cacheSize =>
    exact Call.mirrored _ (shows.observed (congrArg Reply.limit (Recency.capacityShown shows.primary).symm))
  | softSize =>
    exact Call.mirrored _ (shows.observed (congrArg Reply.limit (Overflow.boundShown shows.overflow).symm))
  | isLru =>
    exact Call.mirrored _ (shows.observed (congrArg Reply.flag (Recency.byUseShown shows.primary).symm))
  | concurrencyHint => exact Call.mirrored _ (shows.observed (congrArg Reply.limit shows.hint))
  | counters => exact Call.mirrored _ (shows.observed (congrArg Reply.counters shows.counters))
  | resetCounters =>
    exact Call.mirrored _ ⟨rfl, rfl, shows.primary, shows.overflow, shows.pins, rfl, shows.hint⟩

end Cache

namespace Plain
variable [Identity K] [EquivBEq K] {p : Plain K V}

omit [EquivBEq K] in
theorem Sound.given (sound : p.Sound) (op : KeyedOp) (keys : List K) {turn : Turn K V (Reply K V)}
    (kept : (∀ k ∈ keys, Identity.valid k = true) → turn.plain.Sound ∧ (p.Fits → turn.plain.Fits)) :
    (p.given op keys turn).plain.Sound ∧ (p.Fits → (p.given op keys turn).plain.Fits) := by
  unfold Plain.given
  split
  · rename_i valid
    exact kept (List.all_eq_true.mp valid)
  · exact ⟨sound, id⟩

theorem Sound.step (sound : p.Sound) (filter : Filter K V) (now : Nat) (call : Call K V) :
    (p.step filter now call).plain.Sound ∧ (p.Fits → (p.step filter now call).plain.Fits) := by
  have unchanged : ∀ op keys reply, (p.given op keys (p.answering reply)).plain.Sound ∧
      (p.Fits → (p.given op keys (p.answering reply)).plain.Fits) :=
    fun op keys reply => sound.given op keys (fun _ => ⟨sound, id⟩)
  cases call with
  | get k =>
    refine sound.given .get [k] (fun valid => ?_)
    have lawful := fetchLawful sound filter now (valid k (by simp))
    exact ⟨lawful.sound, lawful.fits⟩
  | put k v =>
    refine sound.given .put [k] (fun valid => ?_)
    have lawful := storeLawful sound filter now (valid k (by simp)) v
    exact ⟨lawful.sound, lawful.fits⟩
  | putAll entries =>
    refine sound.given .putAll _ (fun valid => storeAllSound sound filter now (fun e mem => ?_))
    exact valid e.1 (List.mem_map_of_mem mem)
  | remove k =>
    refine sound.given .remove [k] (fun _ => ?_)
    have lawful := discardLawful sound now k
    exact ⟨lawful.sound, lawful.fits⟩
  | pin k =>
    refine sound.given .pin [k] (fun valid => ?_)
    have lawful := holdLawful sound now (valid k (by simp))
    exact ⟨lawful.sound, lawful.fits⟩
  | unpin k =>
    refine sound.given .unpin [k] (fun _ => ?_)
    have lawful := releaseLawful sound filter now k
    exact ⟨lawful.sound, lawful.fits⟩
  | isPinned k => exact unchanged ..
  | containsKey k => exact unchanged ..
  | peek k => exact unchanged ..
  | clear => exact ⟨soundClear p, fun _ _ _ => Nat.zero_le _⟩
  | setCacheSize n =>
    have lawful := setCacheSizeLawful sound filter now n
    exact ⟨lawful.sound, lawful.fits⟩
  | setSoftSize n =>
    have lawful := setSoftSizeLawful sound n
    exact ⟨lawful.sound, lawful.fits⟩
  | purge =>
    have lawful := purgeLawful sound now
    exact ⟨lawful.sound, lawful.fits⟩
  | resetCounters =>
    exact ⟨⟨sound.single, sound.free, sound.fixed, sound.passing, sound.within, sound.shelved,
      sound.queued, sound.named⟩, id⟩
  | _ => exact ⟨sound, id⟩

end Plain

structure Session.Tracks [Identity K] (s : Session K V) (p : Plain K V) : Prop where
  shows : s.cache.Shows p
  sound : p.Sound
  fits : p.Fits

inductive Agree : List (Move K V) → List (Reply K V × List (Event K V)) →
    List (Reply K V × List (Event K V)) → Prop where
  | nil : Agree [] [] []
  | wait (time : Nat) {moves first second} (later : Agree moves first second) :
      Agree (.wait time :: moves) ((.done, []) :: first) ((.done, []) :: second)
  | call (call : Call K V) {a b moves first second} (answer : a.1.Agrees b.1)
      (events : call.Hears a.2 b.2) (later : Agree moves first second) :
      Agree (.call call :: moves) (a :: first) (b :: second)

/-- What a cache holds, read off its own structures: the order of use and the pinned entries off
the slab, the admissions off the queue, and nothing besides. -/
structure Cache.Spells (c : Cache K V) (p : Plain K V) : Prop where
  recent : c.primary.unpinnedEntries = p.shelf.recent
  pinned : c.primary.pinnedEntries.Perm p.shelf.pinned
  cached : c.primary.size = p.shelf.recent.length + p.shelf.pinned.length
  waiting : c.overflow.admissions = p.line.waiting
  held : c.overflow.held.size = p.line.waiting.length
  pins : c.pins.keys = p.pins
  counters : c.counters = p.counters
  sizes : (c.cacheSize, c.softSize, c.overflow.lifetime, c.concurrencyHint) =
    (p.shelf.capacity, p.line.bound, p.line.lifetime, p.concurrencyHint)
  mode : c.isLru = p.shelf.byUse

namespace Session
variable [Identity K] [EquivBEq K] {s : Session K V} {p : Plain K V}

omit [EquivBEq K] in
theorem startTracks {config : Config} (started : start config = .ok s) :
    s.Tracks (Plain.start config) ∧ s.now = 0 := by
  unfold start at started
  cases created : (Cache.create config : Except Error (Cache K V)) with
  | error e => simp [created, bind, Except.bind] at started
  | ok c =>
    rw [created] at started
    obtain rfl := Except.ok.inj started
    exact ⟨⟨Cache.createShows created, Plain.soundStart config, fun _ _ => Nat.zero_le _⟩, rfl⟩

omit [EquivBEq K] in
theorem Tracks.waited (tracks : s.Tracks p) (time : Nat) : Tracks { s with now := s.now + time } p :=
  ⟨tracks.shows, tracks.sound, tracks.fits⟩

theorem Tracks.call (tracks : s.Tracks p) (filter : Filter K V) (now : Nat) (call : Call K V) :
    Tracks { s with cache := (s.cache.step filter now call).cache } (p.step filter now call).plain := by
  have mirrored := tracks.shows.step tracks.sound filter now call
  obtain ⟨sound, fits⟩ := tracks.sound.step filter now call
  exact ⟨mirrored.shows, sound, fits tracks.fits⟩

theorem Tracks.run (tracks : s.Tracks p) (filter : Filter K V) (moves : List (Move K V)) :
    (s.run filter moves).Tracks (p.run filter s.now moves).2 ∧
    (s.run filter moves).now = (p.run filter s.now moves).1 := by
  induction moves generalizing s p with
  | nil => exact ⟨tracks, rfl⟩
  | cons move rest ih =>
    cases move with
    | wait time =>
      have waited : Tracks { s with now := s.now + time } p := ⟨tracks.shows, tracks.sound, tracks.fits⟩
      exact ih waited
    | call call => exact ih (tracks.call filter s.now call)

theorem Tracks.trace (tracks : s.Tracks p) (filter : Filter K V) (moves : List (Move K V)) :
    Agree moves (s.trace filter moves) (p.trace filter s.now moves) := by
  induction moves generalizing s p with
  | nil => exact .nil
  | cons move rest ih =>
    cases move with
    | wait time =>
      have waited : Tracks { s with now := s.now + time } p := ⟨tracks.shows, tracks.sound, tracks.fits⟩
      exact .wait time (ih waited)
    | call call =>
      have mirrored := tracks.shows.step tracks.sound filter s.now call
      exact .call call mirrored.answer mirrored.events (ih (tracks.call filter s.now call))

theorem Tracks.spells (tracks : s.Tracks p) : s.cache.Spells p := by
  obtain ⟨primary, overflow, pins, counters, hint⟩ := tracks.shows
  refine ⟨Recency.unpinnedShown primary, Recency.pinnedShown primary, Recency.sizeShown primary,
    Overflow.admissionsShown overflow, Overflow.heldSize overflow, pins, counters, ?_,
    (Recency.byUseShown primary).symm⟩
  rw [Recency.capacityShown primary, Overflow.boundShown overflow, Overflow.lifetimeShown overflow, ← hint]
  rfl

theorem runRefinesPlain (filter : Filter K V) {config : Config} (started : start config = .ok s)
    (moves : List (Move K V)) :
    Agree moves (s.trace filter moves) ((Plain.start config).trace filter 0 moves) ∧
    (s.run filter moves).cache.Spells ((Plain.start config).run filter 0 moves).2 ∧
    (s.run filter moves).now = ((Plain.start config).run filter 0 moves).1 := by
  obtain ⟨tracks, zero⟩ := startTracks started
  obtain ⟨final, now⟩ := tracks.run filter moves
  have agree := tracks.trace filter moves
  rw [zero] at agree final now
  exact ⟨agree, final.spells, now⟩

/- Key 1 is evicted by key 2, comes back after a while, and is refused by the filter at the end. -/
theorem runRefinesPlainSmall :
    let config : Config := { lru := true, cacheSize := some 1, softSize := some 1, reclaimAfter := some 1 }
    let filter : Filter Nat Nat := fun k _ => k != 3
    let moves : List (Move Nat Nat) :=
      [.call (.put 1 10), .call (.put 2 20), .wait 1000000, .call (.get 1), .call (.put 3 30),
        .call (.pin 2), .call (.setCacheSize (some 0)), .call .keys]
    let s : Session Nat Nat := ⟨0, .empty true (some 1) (some 1) (some 1000000)⟩
    start config = .ok s ∧
    Agree moves (s.trace filter moves) ((Plain.start config).trace filter 0 moves) ∧
    (s.run filter moves).cache.Spells ((Plain.start config).run filter 0 moves).2 ∧
    (s.run filter moves).now = ((Plain.start config).run filter 0 moves).1 :=
  ⟨rfl, runRefinesPlain _ rfl _⟩

end Session
end TieredCache
