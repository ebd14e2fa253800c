import TieredCache.Proofs.Endless
import TieredCache.Proofs.Observers
import TieredCache.Proofs.Table

/-! A cache whose overflow tier has no bound, no lifetime and no filter is a table. Whatever its size,
its order and its pins, and wherever each entry stands, every reply is the reply of one finite map
with a set of pinned keys, the lookups are counted as there, and nothing is ever reported lost. -/
namespace TieredCache
open Keyed (Apart find without copies)
variable {K V : Type} [BEq K]

/-- A table lists its keys in one group. A cache tells the same if its three groups together hold these keys,
each as often, in whatever order. -/
def Reply.Tells : Reply K V → Reply K V → Prop
  | .keys l, .keys table => table.pinned = [] ∧ table.overflow = [] ∧
      ∀ k, copies id (l.recent ++ l.pinned ++ l.overflow) k = copies id table.recent k
  | a, b => a = b

theorem Reply.Agrees.tells {a b c : Reply K V} (agrees : a.Agrees b) (tells : b.Tells c) : a.Tells c := by
  unfold Agrees at agrees
  split at agrees
  · rename_i l m
    obtain ⟨recent, pinned, overflow⟩ := agrees
    have same : (l.recent ++ l.pinned ++ l.overflow).Perm (m.recent ++ m.pinned ++ m.overflow) := by
      rw [recent, overflow]
      exact (pinned.append_left m.recent).append_right m.overflow
    cases c with
    | keys n =>
      obtain ⟨bare, short, counts⟩ := tells
      exact ⟨bare, short, fun k => (Keyed.copiesPerm id same k).trans (counts k)⟩
    | _ => simp [Tells] at tells
  · rw [agrees]
    exact tells

theorem Reply.Tells.after {a b : Reply K V} (tells : a.Tells b) (n : Lookups) (call : Call K V) :
    n.after call a = n.after call b := by
  unfold Tells at tells
  split at tells
  · cases call <;> rfl
  · rw [tells]

theorem Table.stepLookups [Identity K] (t : Table K V) {call : Call K V} (known : call.ofTable = true) :
    (t.step call).2.lookups = t.lookups.after call (t.step call).1 := by
  cases call with
  | clear => rfl
  | size | isEmpty | keys | pinnedKeys | setCacheSize | purge => rfl
  | setSoftSize | cacheSize | softSize | isLru | concurrencyHint | counters | resetCounters =>
    exact Bool.noConfusion known
  | _ =>
    simp only [Table.step, Table.given]
    split <;> rfl

namespace Plain

/-- The plain cache serves a table: it loses nothing, and each lookup finds what the table has. -/
structure Serves (p : Plain K V) (t : Table K V) : Prop where
  endless : p.line.Endless
  found : ∀ now k, p.lookup now k = t.entries.find? k
  apart : Apart Prod.fst t.entries.entries
  pins : p.pins = t.pins

end Plain

structure Turn.Matches (turn : Turn K V (Reply K V)) (reply : Reply K V) (t : Table K V) : Prop where
  answer : turn.answer.Tells reply
  silent : ∀ k, .reclaimed k ∉ turn.events
  serves : turn.plain.Serves t

namespace Plain
variable {p q : Plain K V} {t u : Table K V}

theorem startServes {config : Config} (unbounded : config.softSize = none)
    (lasting : config.reclaimAfter = none) : (Plain.start config : Plain K V).Serves .empty where
  endless := ⟨by simp [start, unbounded], by simp [start, Config.retention, lasting]⟩
  found := fun _ _ => rfl
  apart := List.Pairwise.nil
  pins := rfl

theorem clearServes (serves : p.Serves t) : p.clear.Serves .empty where
  endless := ⟨serves.endless.unbounded, serves.endless.lasting⟩
  found := fun _ _ => rfl
  apart := List.Pairwise.nil
  pins := rfl

theorem Serves.kept (serves : p.Serves t) (now : Nat) (endless : q.line.Endless)
    (lookup : ∀ k, q.lookup now k = p.lookup now k) (entries : u.entries = t.entries)
    (pins : q.pins = u.pins) : q.Serves u where
  endless := endless
  found := fun later k => by rw [lookupLater endless now, lookup, serves.found, entries]
  apart := entries ▸ serves.apart
  pins := pins

theorem Serves.answering (serves : p.Serves t) {a b : Reply K V} (tells : a.Tells b) :
    (p.answering a).Matches b t := ⟨tells, fun _ => List.not_mem_nil, serves⟩

theorem Serves.given [Identity K] (serves : p.Serves t) (op : KeyedOp) (keys : List K)
    {turn : Turn K V (Reply K V)} {reply : Reply K V}
    (matching : (∀ k ∈ keys, Identity.valid k = true) → turn.Matches reply u) :
    (p.given op keys turn).Matches (t.given op keys reply u).1 (t.given op keys reply u).2 := by
  unfold Plain.given Table.given
  cases valid : keys.all Identity.valid with
  | false => exact serves.answering rfl
  | true => exact matching (List.all_eq_true.mp valid)

theorem Serves.both (serves : p.Serves t) (now : Nat) (k : K) :
    (find Prod.fst (p.live now) k).isSome = (find Prod.fst t.entries.entries k).isSome := by
  have same := congrArg Option.isSome (serves.found now k)
  rwa [lookupFind, Dict.findEntries, Option.isSome_map, Option.isSome_map] at same

variable [EquivBEq K]

theorem Serves.size (serves : p.Serves t) (single : p.Single) (now : Nat) :
    p.size now = t.entries.size := by
  have length : p.size now = (p.live now).length := by simp [Plain.size, live, Shelf.entries, Nat.add_assoc]
  rw [length]
  exact Keyed.sameLength (single.liveApart now) serves.apart (serves.both now)

theorem Serves.listed (serves : p.Serves t) (single : p.Single) (now : Nat) (k : K) :
    copies id ((p.listing now).recent ++ (p.listing now).pinned ++ (p.listing now).overflow) k =
      copies id t.entries.keys k := by
  have listed := p.listingKeys now
  unfold Listing.keys at listed
  rw [listed, Dict.keys, Keyed.copiesKeys, Keyed.copiesKeys, Keyed.apartCount (single.liveApart now),
    Keyed.apartCount serves.apart, serves.both]

variable [Identity K]

theorem Serves.fetch (serves : p.Serves t) (sound : p.Sound) (now : Nat) {k : K}
    (valid : Identity.valid k = true) (lookups : Lookups) :
    (p.fetch .all now k).answer = t.entries.find? k ∧ (p.fetch .all now k).Spares ∧
    (p.fetch .all now k).plain.Serves { t with lookups := lookups } := by
  have spares := fetchSpares serves.endless now k
  have lawful := fetchLawful sound .all now valid
  refine ⟨(fetchAnswer sound.single .all now k).trans (serves.found now k), spares, ?_⟩
  refine serves.kept now spares.endless (fun j => ?_) rfl ?_
  · exact lawful.lookup sound.single serves.endless spares (fun v => fetchHas sound.single .all k)
  · rw [fetchPins, serves.pins]

theorem Serves.store (serves : p.Serves t) (sound : p.Sound) (now : Nat) {k : K}
    (valid : Identity.valid k = true) (v : V) :
    (p.store .all now k v).answer = t.entries.find? k ∧ (p.store .all now k v).Spares ∧
    (p.store .all now k v).plain.Serves { t with entries := t.entries.insert k v } := by
  have spares := storeSpares serves.endless now k v
  refine ⟨(storeAnswer sound.single .all now k v).trans (serves.found now k), spares, spares.endless,
    fun later j => ?_, Dict.insertApart serves.apart k v, ?_⟩
  · rw [lookupLater spares.endless now, storeLookup sound serves.endless now valid, serves.found]
    cases at_j : k == j with
    | true => exact (t.entries.findInsertSame v at_j).symm
    | false => exact (t.entries.findInsertOther v at_j).symm
  · rw [storePins, serves.pins]

theorem Serves.storeAll (serves : p.Serves t) (sound : p.Sound) (now : Nat) {entries : List (K × V)}
    (valid : ∀ e ∈ entries, Identity.valid e.1 = true) :
    (p.storeAll .all now entries).Spares ∧ (p.storeAll .all now entries).plain.Serves (t.putAll entries) := by
  induction entries generalizing p t with
  | nil => exact ⟨⟨fun _ => List.not_mem_nil, serves.endless⟩, serves⟩
  | cons e rest ih =>
    have at_e := valid e (by simp)
    obtain ⟨_, first, stored⟩ := serves.store sound now at_e e.2
    have after := (storeLawful sound .all now at_e e.2).sound
    obtain ⟨others, last⟩ := ih stored after (fun d mem => valid d (by simp [mem]))
    exact ⟨⟨fun k mem => (List.mem_append.mp mem).elim (first.silent k) (others.silent k), others.endless⟩,
      last⟩

theorem Serves.discard (serves : p.Serves t) (sound : p.Sound) (now : Nat) (k : K) :
    (p.discard now k).answer = t.entries.find? k ∧ (p.discard now k).Spares ∧
    (p.discard now k).plain.Serves { t with entries := t.entries.erase k, pins := without id t.pins k } := by
  have spares := discardSpares serves.endless now k
  refine ⟨(discardAnswer sound.single now k).trans (serves.found now k), spares, spares.endless,
    fun later j => ?_, Keyed.apartWithout serves.apart k, ?_⟩
  · rw [lookupLater spares.endless now, discardLookup sound serves.endless, serves.found]
    cases at_j : k == j with
    | true => exact (t.entries.findEraseSame at_j).symm
    | false => exact (t.entries.findEraseOther at_j).symm
  · rw [discardPins, serves.pins]

theorem Serves.hold (serves : p.Serves t) (sound : p.Sound) (now : Nat) {k : K}
    (valid : Identity.valid k = true) :
    (p.hold now k).answer = t.entries.contains k ∧ (p.hold now k).Spares ∧
    (p.hold now k).plain.Serves { t with pins := withPin t.pins k } := by
  have spares := holdSpares serves.endless now k
  have lawful := holdLawful sound now valid
  refine ⟨?_, spares, serves.kept now spares.endless (fun j => ?_) rfl ?_⟩
  · rw [holdAnswer sound.single, serves.found]
    rfl
  · exact lawful.lookup sound.single serves.endless spares (fun v => holdHas sound.single k)
  · rw [holdPins, serves.pins]

theorem Serves.release (serves : p.Serves t) (sound : p.Sound) (now : Nat) (k : K) :
    (p.release .all now k).answer = t.isPinned k ∧ (p.release .all now k).Spares ∧
    (p.release .all now k).plain.Serves { t with pins := without id t.pins k } := by
  have spares := releaseSpares serves.endless now k
  have lawful := releaseLawful sound .all now k
  refine ⟨?_, spares, serves.kept now spares.endless (fun j => ?_) rfl ?_⟩
  · have answer : (p.release .all now k).answer = p.isPinned k := by
      unfold Plain.release
      cases p.shelf.find? k <;> rfl
    rw [answer, Plain.isPinned, serves.pins, Table.isPinned]
  · exact lawful.lookup sound.single serves.endless spares (fun v => releaseHas sound.single .all k)
  · rw [releasePins, serves.pins]

theorem Serves.setCacheSize (serves : p.Serves t) (sound : p.Sound) (now : Nat) (n : Option Nat) :
    (p.setCacheSize .all now n).Spares ∧ (p.setCacheSize .all now n).plain.Serves t := by
  have spares : (p.setCacheSize .all now n).Spares :=
    settleSpares (p := { p with shelf := { p.shelf with capacity := n } }) serves.endless now
  have lawful := setCacheSizeLawful sound .all now n
  refine ⟨spares, serves.kept now spares.endless (fun j => ?_) rfl serves.pins⟩
  exact lawful.lookup sound.single serves.endless spares (fun v => setCacheSizeHas .all n)

theorem Serves.step (serves : p.Serves t) (sound : p.Sound) (now : Nat) {call : Call K V}
    (known : call.ofTable = true) :
    (p.step .all now call).Matches (t.step call).1 (t.step call).2 := by
  cases call with
  | get k =>
    refine serves.given .get [k] (fun valid => ?_)
    obtain ⟨answer, spares, kept⟩ := serves.fetch sound now (valid k (by simp)) (t.lookups.look (t.entries.find? k).isSome)
    exact ⟨congrArg Reply.value answer, spares.silent, kept⟩
  | put k v =>
    refine serves.given .put [k] (fun valid => ?_)
    obtain ⟨answer, spares, stored⟩ := serves.store sound now (valid k (by simp)) v
    exact ⟨congrArg Reply.value answer, spares.silent, stored⟩
  | putAll entries =>
    refine serves.given .putAll _ (fun valid => ?_)
    obtain ⟨spares, stored⟩ := serves.storeAll sound now (fun e mem => valid e.1 (List.mem_map_of_mem mem))
    exact ⟨rfl, spares.silent, stored⟩
  | remove k =>
    refine serves.given .remove [k] (fun _ => ?_)
    obtain ⟨answer, spares, removed⟩ := serves.discard sound now k
    exact ⟨congrArg Reply.value answer, spares.silent, removed⟩
  | pin k =>
    refine serves.given .pin [k] (fun valid => ?_)
    obtain ⟨answer, spares, held⟩ := serves.hold sound now (valid k (by simp))
    exact ⟨congrArg Reply.flag answer, spares.silent, held⟩
  | unpin k =>
    refine serves.given .unpin [k] (fun _ => ?_)
    obtain ⟨answer, spares, released⟩ := serves.release sound now k
    exact ⟨congrArg Reply.flag answer, spares.silent, released⟩
  | isPinned k =>
    have same : p.isPinned k = t.isPinned k := by rw [Plain.isPinned, serves.pins, Table.isPinned]
    exact serves.given .isPinned [k] (fun _ => serves.answering (congrArg Reply.flag same))
  | containsKey k =>
    have same := congrArg Option.isSome (serves.found now k)
    exact serves.given .containsKey [k] (fun _ => serves.answering (congrArg Reply.flag same))
  | peek k =>
    exact serves.given .peek [k] (fun _ => serves.answering (congrArg Reply.value (serves.found now k)))
  | size => exact serves.answering (congrArg Reply.count (serves.size sound.single now))
  | isEmpty =>
    have same := serves.size sound.single now
    exact serves.answering (congrArg (fun n => Reply.flag (n == 0)) same)
  | keys => exact serves.answering ⟨rfl, rfl, serves.listed sound.single now⟩
  | pinnedKeys => exact serves.answering (congrArg Reply.pinned serves.pins)
  | clear => exact ⟨rfl, fun _ => List.not_mem_nil, clearServes serves⟩
  | setCacheSize n =>
    obtain ⟨spares, kept⟩ := serves.setCacheSize sound now n
    exact ⟨rfl, spares.silent, kept⟩
  | purge =>
    obtain ⟨spares, answer, line⟩ := purgeSpares serves.endless now
    have lookup : ∀ k, (p.purge now).plain.lookup now k = p.lookup now k := by
      intro k
      rw [Plain.lookup, line]
      rfl
    exact ⟨congrArg Reply.count answer, spares.silent, serves.kept now spares.endless lookup rfl serves.pins⟩
  | _ => exact Bool.noConfusion known

end Plain

namespace Session
variable [EquivBEq K] [Identity K] {s : Session K V}

theorem Tracks.lossless {p : Plain K V} {t : Table K V} (tracks : s.Tracks p) (serves : p.Serves t)
    (counts : t.lookups.Counts s.cache.counters) {moves : List (Move K V)}
    (known : ∀ call, .call call ∈ moves → call.ofTable = true) :
    List.Forall₂ (fun told reply => told.1.Tells reply ∧ ∀ k, .reclaimed k ∉ told.2)
      (s.trace .all moves) (t.trace moves) ∧
    (t.run moves).lookups.Counts (s.run .all moves).cache.counters := by
  induction moves generalizing s p t with
  | nil => exact ⟨.nil, counts⟩
  | cons move rest ih =>
    have later : ∀ call, .call call ∈ rest → call.ofTable = true :=
      fun call mem => known call (by simp [mem])
    cases move with
    | wait time =>
      obtain ⟨others, last⟩ := ih (tracks.waited time) serves counts later
      exact ⟨.cons ⟨rfl, fun _ => List.not_mem_nil⟩ others, last⟩
    | call call =>
      have known := known call (by simp)
      obtain ⟨answer, events, _⟩ := tracks.shows.step tracks.sound .all s.now call
      obtain ⟨tells, silent, served⟩ := serves.step tracks.sound s.now known
      have told := answer.tells tells
      have counted := Cache.stepCounted .all s.now call counts
      rw [told.after, ← t.stepLookups known] at counted
      obtain ⟨others, last⟩ := ih (tracks.call .all s.now call) served counted later
      have hush : ∀ k, .reclaimed k ∉ (s.cache.step .all s.now call).events :=
        fun k mem => silent k (events.perm.mem_iff.mp mem)
      exact ⟨.cons ⟨told, hush⟩ others, last⟩

theorem runLossless {config : Config} (unbounded : config.softSize = none)
    (lasting : config.reclaimAfter = none) (started : start config = .ok s) {moves : List (Move K V)}
    (known : ∀ call, .call call ∈ moves → call.ofTable = true) :
    List.Forall₂ (fun told reply => told.1.Tells reply ∧ ∀ k, .reclaimed k ∉ told.2)
      (s.trace .all moves) (Table.empty.trace moves) ∧
    (Table.empty.run moves).lookups.Counts (s.run .all moves).cache.counters := by
  obtain ⟨tracks, _⟩ := startTracks started
  have serves : (Plain.start config : Plain K V).Serves .empty := Plain.startServes unbounded lasting
  exact tracks.lossless serves (startCounted started) known

/- No room at all in the primary tier: each entry brought back leaves again in the same call, unless
its key is pinned. -/
theorem runLosslessSmall :
    let config : Config := { lru := true, cacheSize := some 0 }
    let moves : List (Move Nat Nat) :=
      [.call (.putAll [(1, 10), (2, 20)]), .call (.get 1), .wait 5, .call (.pin 2), .call (.put 2 21),
        .call (.setCacheSize (some 1)), .call (.get 3), .call .purge, .call .keys, .call (.remove 1),
        .call .size]
    let s : Session Nat Nat := ⟨0, .empty true (some 0) none none⟩
    (start config = .ok s ∧ (∀ call, .call call ∈ moves → call.ofTable = true) ∧
      Table.empty.run moves = ⟨⟨[(2, 21)]⟩, [2], ⟨1, 1⟩⟩) ∧
    List.Forall₂ (fun told reply => told.1.Tells reply ∧ ∀ k, .reclaimed k ∉ told.2)
      (s.trace .all moves) (Table.empty.trace moves) ∧
    (Table.empty.run moves).lookups.Counts (s.run .all moves).cache.counters := by
  intro config moves s
  have started : start config = .ok s := rfl
  have known : ∀ call, .call call ∈ moves → call.ofTable = true := by simp [moves, Call.ofTable]
  exact ⟨⟨started, known, by decide⟩, runLossless rfl rfl started known⟩

end Session
end TieredCache
