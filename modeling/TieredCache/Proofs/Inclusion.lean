import TieredCache.Proofs.Lookups
import TieredCache.Proofs.Nested
import TieredCache.Proofs.Refinement

/-! Two caches in order of use, neither with an overflow tier, under the same calls. Nothing is pinned
and no size is changed. What the one with the smaller capacity holds the other holds at every moment,
with the same values and in the same order of use: whatever value the smaller answers with, the larger
answers with too, and it is hit at least as often. -/
namespace TieredCache
open Keyed (Apart find without)
variable {K V A : Type}

def Call.steady : Call K V → Bool
  | .pin _ | .unpin _ | .setCacheSize _ | .setSoftSize _ => false
  | _ => true

def Reply.Covers (large small : Reply K V) : Prop :=
  ∀ v, small = .value (some v) → large = .value (some v)

theorem Reply.Covers.value {first second : Option V} (found : ∀ v, first = some v → second = some v) :
    Reply.Covers (.value second : Reply K V) (.value first) :=
  fun v same => congrArg Reply.value (found v (Reply.value.inj same))

namespace Lookups

theorem afterHits {n m : Lookups} (fewer : n.hits ≤ m.hits) (call : Call K V) {a b : Reply K V}
    (covers : b.Covers a) : (n.after call a).hits ≤ (m.after call b).hits := by
  have grows : ∀ found, m.hits ≤ (m.look found).hits := by
    intro found
    cases found with
    | true => exact Nat.le_succ _
    | false => exact Nat.le_refl _
  cases call with
  | clear => exact Nat.le_refl _
  | resetCounters => exact Nat.le_refl _
  | get k =>
    have later : n.hits ≤ (m.after (.get k) b).hits := by
      cases b with
      | value found => exact Nat.le_trans fewer (grows found.isSome)
      | _ => exact fewer
    cases a with
    | value found =>
      cases found with
      | none => exact later
      | some v =>
        rw [covers v rfl]
        exact Nat.succ_le_succ fewer
    | _ => exact later
  | _ => exact fewer

theorem Counts.hitsFewer {n m : Lookups} {c d : Counters} (first : n.Counts c) (second : m.Counts d)
    (fewer : n.hits ≤ m.hits) (word : m.hits < UInt64.size) : c.hits ≤ d.hits := by
  rw [first.hits, second.hits, UInt64.le_iff_toNat_le, UInt64.toNat_ofNat_of_lt' word,
    UInt64.toNat_ofNat_of_lt' (Nat.lt_of_le_of_lt fewer word)]
  exact fewer

end Lookups

theorem Line.receiveShut {l : Line K V} (shut : l.bound = some 0) (filter : Filter K V) (now : Nat)
    (victims : List (K × V)) : (l.receive filter now victims).2 = l := by
  induction victims with
  | nil => rfl
  | cons e rest ih =>
    have refused : l.offer filter now e.1 e.2 = ([e.1], l) := by
      unfold offer
      rw [if_neg (fun taken => taken.2 shut)]
    unfold receive
    rw [refused]
    exact ih

theorem Reply.Agrees.value {a b : Reply K V} (agrees : a.Agrees b) (found : Option V) :
    a = .value found ↔ b = .value found := by
  unfold Agrees at agrees
  split at agrees
  · simp
  · rw [agrees]

namespace Plain
variable [BEq K] {p q : Plain K V}

structure Lone (p : Plain K V) : Prop where
  ordered : p.shelf.Ordered
  pins : p.pins = []
  shut : p.line.bound = some 0
  waiting : p.line.waiting = []

theorem startLone {config : Config} (byUse : config.lru = true) (shut : config.softSize = some 0) :
    (start config : Plain K V).Lone where
  ordered := ⟨byUse, rfl, List.Pairwise.nil, fun _ _ => Nat.zero_le _⟩
  pins := rfl
  shut := by simp [start, shut]
  waiting := rfl

theorem Lone.become (lone : p.Lone) (ordered : q.shelf.Ordered) (pins : q.pins = p.pins)
    (line : q.line = p.line) : q.Lone where
  ordered := ordered
  pins := pins.trans lone.pins
  shut := line ▸ lone.shut
  waiting := line ▸ lone.waiting

theorem Lone.withdraw (lone : p.Lone) (now : Nat) (k : K) :
    p.withdraw now k = { answer := none, events := [], plain := p } := by
  unfold Plain.withdraw
  rw [lone.waiting]
  rfl

theorem Lone.lookup (lone : p.Lone) (now : Nat) (k : K) : p.lookup now k = p.shelf.find? k := by
  unfold Plain.lookup Line.lookup Line.live
  rw [lone.waiting]
  exact Option.or_none

theorem Lone.discard (lone : p.Lone) (now : Nat) (k : K) :
    (p.discard now k).answer = p.shelf.find? k ∧
    (p.discard now k).plain.shelf = p.shelf.remove k ∧ (p.discard now k).plain.Lone := by
  have pins : without id p.pins k = p.pins := by
    rw [lone.pins]
    rfl
  have removed : Lone { p with shelf := p.shelf.remove k, pins := without id p.pins k } :=
    lone.become (lone.ordered.remove k) pins rfl
  unfold Plain.discard
  dsimp only
  rw [removed.withdraw]
  exact ⟨Option.or_none, rfl, removed⟩

theorem Lone.cleared (lone : p.Lone) : p.clear.Lone where
  ordered := lone.ordered.cleared
  pins := rfl
  shut := lone.shut
  waiting := rfl

theorem Lone.purge (lone : p.Lone) (now : Nat) : (p.purge now).plain.Lone where
  ordered := lone.ordered
  pins := lone.pins
  shut := lone.shut
  waiting := by
    show p.line.waiting.filter _ = []
    rw [lone.waiting]
    rfl

variable [EquivBEq K]

theorem Lone.fetch (lone : p.Lone) (filter : Filter K V) (now : Nat) (k : K) :
    (p.fetch filter now k).answer = p.shelf.find? k ∧
    (p.fetch filter now k).plain.shelf = p.shelf.touch k ∧ (p.fetch filter now k).plain.Lone := by
  unfold Plain.fetch
  cases found : p.shelf.find? k with
  | some v => exact ⟨rfl, rfl, lone.become (lone.ordered.touch k) rfl rfl⟩
  | none =>
    rw [lone.withdraw]
    exact ⟨rfl, (lone.ordered.touchAbsent found).symm, lone.become lone.ordered rfl rfl⟩

theorem Lone.store (lone : p.Lone) (filter : Filter K V) (now : Nat) (k : K) (v : V) :
    (p.store filter now k v).answer = p.shelf.find? k ∧
    (p.store filter now k v).plain.shelf = p.shelf.put k v ∧ (p.store filter now k v).plain.Lone := by
  have ordered := lone.ordered.put k v
  have free : p.isPinned k = false := by
    unfold isPinned
    rw [lone.pins]
    rfl
  unfold Shelf.put at ordered ⊢
  unfold Plain.store
  cases found : p.shelf.find? k with
  | some old =>
    rw [found] at ordered
    exact ⟨rfl, rfl, lone.become ordered rfl rfl⟩
  | none =>
    rw [found] at ordered
    have entered : p.enter k v = { p with shelf := p.shelf.enter k v false } := by
      unfold Plain.enter
      rw [free]
    rw [lone.withdraw]
    dsimp only
    rw [entered]
    have line := Line.receiveShut lone.shut filter now (p.shelf.enter k v false).surplus
    exact ⟨rfl, rfl, lone.become ordered rfl line⟩

structure Nests (p q : Plain K V) : Prop where
  small : p.Lone
  large : q.Lone
  inside : p.shelf.Inside q.shelf

end Plain

structure Turn.Nests [BEq K] (t u : Turn K V (Reply K V)) : Prop where
  answer : u.answer.Covers t.answer
  plain : t.plain.Nests u.plain

namespace Plain
variable [BEq K] [EquivBEq K] {p q : Plain K V}

omit [EquivBEq K] in
theorem startNests {config larger : Config} (byUse : config.lru = true ∧ larger.lru = true)
    (shut : config.softSize = some 0 ∧ larger.softSize = some 0)
    (sizes : ∀ most, larger.cacheSize = some most → ∃ few, config.cacheSize = some few ∧ few ≤ most) :
    (start config : Plain K V).Nests (start larger) where
  small := startLone byUse.1 shut.1
  large := startLone byUse.2 shut.2
  inside := by
    refine ⟨.nil, fun most capped => ?_⟩
    obtain ⟨size, large, rfl⟩ := Option.map_eq_some_iff.mp capped
    obtain ⟨few, small, less⟩ := sizes size large
    refine ⟨few.toNat, by simp [start, small], ?_⟩
    exact Nat.add_le_add_left (UInt64.le_iff_toNat_le.mp less) 0

namespace Nests

omit [EquivBEq K] in
theorem answering (nests : p.Nests q) {a b : Reply K V} (covers : b.Covers a) :
    (p.answering a).Nests (q.answering b) := ⟨covers, nests⟩

theorem find (nests : p.Nests q) {k : K} {v : V} (found : p.shelf.find? k = some v) :
    q.shelf.find? k = some v := nests.inside.find nests.small.ordered nests.large.ordered found

theorem store (nests : p.Nests q) (filter other : Filter K V) (now later : Nat) (k : K) (v : V) :
    (p.store filter now k v).plain.Nests (q.store other later k v).plain := by
  obtain ⟨_, few, small⟩ := nests.small.store filter now k v
  obtain ⟨_, most, large⟩ := nests.large.store other later k v
  refine ⟨small, large, ?_⟩
  rw [few, most]
  exact nests.inside.put nests.small.ordered nests.large.ordered k v

theorem storeAll (nests : p.Nests q) (filter other : Filter K V) (now later : Nat)
    (entries : List (K × V)) :
    (p.storeAll filter now entries).plain.Nests (q.storeAll other later entries).plain := by
  induction entries generalizing p q with
  | nil => exact nests
  | cons e rest ih => exact ih (nests.store filter other now later e.1 e.2)

omit [EquivBEq K] in
theorem cleared (nests : p.Nests q) : p.clear.Nests q.clear where
  small := nests.small.cleared
  large := nests.large.cleared
  inside := by
    refine ⟨.nil, fun most capped => ?_⟩
    obtain ⟨few, small, room⟩ := nests.inside.room most capped
    have fewer := nests.inside.nested.length
    refine ⟨few, small, ?_⟩
    show 0 + few ≤ 0 + most
    omega

variable [Identity K]

omit [EquivBEq K] in
theorem given (nests : p.Nests q) (op : KeyedOp) (keys : List K) {t u : Turn K V (Reply K V)}
    (turn : t.Nests u) : (p.given op keys t).Nests (q.given op keys u) := by
  unfold Plain.given
  split
  · exact turn
  · exact nests.answering (fun _ same => same)

theorem step (nests : p.Nests q) (filter other : Filter K V) (now later : Nat) {call : Call K V}
    (steady : call.steady = true) : (p.step filter now call).Nests (q.step other later call) := by
  have ⟨small, large, inside⟩ := nests
  cases call with
  | get k =>
    obtain ⟨first, few, lone⟩ := small.fetch filter now k
    obtain ⟨second, most, other_lone⟩ := large.fetch other later k
    have touched := inside.touch small.ordered large.ordered k
    rw [← few, ← most] at touched
    refine nests.given .get [k] ⟨.value (fun v found => ?_), lone, other_lone, touched⟩
    exact second.trans (nests.find (first.symm.trans found))
  | put k v =>
    obtain ⟨first, _⟩ := small.store filter now k v
    obtain ⟨second, _⟩ := large.store other later k v
    refine nests.given .put [k] ⟨.value (fun w found => ?_), nests.store filter other now later k v⟩
    exact second.trans (nests.find (first.symm.trans found))
  | putAll entries =>
    exact nests.given .putAll _ ⟨nofun, nests.storeAll filter other now later entries⟩
  | remove k =>
    obtain ⟨first, few, lone⟩ := small.discard now k
    obtain ⟨second, most, other_lone⟩ := large.discard later k
    have removed := inside.remove small.ordered large.ordered k
    rw [← few, ← most] at removed
    refine nests.given .remove [k] ⟨.value (fun v found => ?_), lone, other_lone, removed⟩
    exact second.trans (nests.find (first.symm.trans found))
  | peek k =>
    refine nests.given .peek [k] (nests.answering (.value (fun v found => ?_)))
    rw [small.lookup] at found
    exact (large.lookup later k).trans (nests.find found)
  | isPinned k => exact nests.given .isPinned [k] (nests.answering nofun)
  | containsKey k => exact nests.given .containsKey [k] (nests.answering nofun)
  | clear => exact ⟨nofun, nests.cleared⟩
  | purge => exact ⟨nofun, small.purge now, large.purge later, inside⟩
  | resetCounters =>
    exact ⟨nofun, small.become small.ordered rfl rfl,
      large.become large.ordered rfl rfl, inside⟩
  | pin | unpin | setCacheSize | setSoftSize => exact Bool.noConfusion steady
  | _ => exact nests.answering nofun

end Nests
end Plain

namespace Session
variable [BEq K] [EquivBEq K] [Identity K] {s l : Session K V}

theorem Tracks.nested {p q : Plain K V} (small : s.Tracks p) (large : l.Tracks q) (nests : p.Nests q)
    {n m : Lookups} (fewer : n.hits ≤ m.hits) (filter other : Filter K V) {moves : List (Move K V)}
    (steady : ∀ call, .call call ∈ moves → call.steady = true) :
    (p.run filter s.now moves).2.Nests (q.run other l.now moves).2 ∧
    List.Forall₂ (fun few most => Reply.Covers most.1 few.1) (s.trace filter moves) (l.trace other moves) ∧
    (s.lookups filter n moves).hits ≤ (l.lookups other m moves).hits := by
  induction moves generalizing s l p q n m with
  | nil => exact ⟨nests, .nil, fewer⟩
  | cons move rest ih =>
    have later : ∀ call, .call call ∈ rest → call.steady = true :=
      fun call mem => steady call (by simp [mem])
    cases move with
    | wait time =>
      obtain ⟨last, others, hits⟩ := ih (small.waited time) (large.waited time) nests fewer later
      exact ⟨last, .cons (fun _ same => same) others, hits⟩
    | call call =>
      obtain ⟨covers, after⟩ := nests.step filter other s.now l.now (steady call (by simp))
      have first := (small.shows.step small.sound filter s.now call).answer
      have second := (large.shows.step large.sound other l.now call).answer
      have told : Reply.Covers (l.cache.step other l.now call).answer (s.cache.step filter s.now call).answer :=
        fun v found => (second.value (some v)).mpr (covers v ((first.value (some v)).mp found))
      obtain ⟨last, others, hits⟩ := ih (small.call filter s.now call) (large.call other l.now call)
        after (Lookups.afterHits fewer call told) later
      exact ⟨last, .cons told others, hits⟩

theorem runNested (filter other : Filter K V) {config larger : Config} (started : start config = .ok s)
    (also : start larger = .ok l) (byUse : config.lru = true ∧ larger.lru = true)
    (shut : config.softSize = some 0 ∧ larger.softSize = some 0)
    (sizes : ∀ most, larger.cacheSize = some most → ∃ few, config.cacheSize = some few ∧ few ≤ most)
    {moves : List (Move K V)} (steady : ∀ call, .call call ∈ moves → call.steady = true) :
    let small := (s.run filter moves).cache
    let large := (l.run other moves).cache
    Nested small.primary.unpinnedEntries large.primary.unpinnedEntries ∧
    (small.primary.pinnedEntries = [] ∧ large.primary.pinnedEntries = []) ∧
    List.Forall₂ (fun few most => Reply.Covers most.1 few.1) (s.trace filter moves) (l.trace other moves) ∧
    (s.lookups filter {} moves).hits ≤ (l.lookups other {} moves).hits ∧
    ((l.lookups other {} moves).hits < UInt64.size → small.counters.hits ≤ large.counters.hits) := by
  intro small large
  obtain ⟨first, _⟩ := startTracks started
  obtain ⟨second, _⟩ := startTracks also
  have nests : (Plain.start config : Plain K V).Nests (Plain.start larger) := Plain.startNests byUse shut sizes
  obtain ⟨last, told, hits⟩ := first.nested second nests (Nat.le_refl _) filter other steady
  have few := (first.run filter moves).1.shows
  have most := (second.run other moves).1.shows
  have counted := runCounted filter (startCounted started) moves
  have recorded := runCounted other (startCounted also) moves
  refine ⟨?_, ⟨?_, ?_⟩, told, hits, fun word => ?_⟩
  · rw [Recency.unpinnedShown few.primary, Recency.unpinnedShown most.primary]
    exact last.inside.nested
  · exact List.perm_nil.mp (last.small.ordered.bare ▸ Recency.pinnedShown few.primary)
  · exact List.perm_nil.mp (last.large.ordered.bare ▸ Recency.pinnedShown most.primary)
  · exact counted.hitsFewer recorded hits word

/- Key 1 is asked for when only the larger cache still has it: there it comes to the front, and the next
put evicts key 2, which is not in the smaller one by then. -/
theorem runNestedSmall :
    let config : Config := { lru := true, cacheSize := some 2, softSize := some 0 }
    let larger : Config := { lru := true, cacheSize := some 3, softSize := some 0, reclaimAfter := some 1 }
    let moves : List (Move Nat Nat) :=
      [.call (.put 9 90), .call .clear, .call (.putAll [(1, 10), (2, 20), (3, 30)]), .call (.get 1),
        .wait 1000000, .call (.put 4 40), .call (.remove 3), .call (.peek 2), .call (.containsKey 1),
        .call (.get 4)]
    let s : Session Nat Nat := ⟨0, .empty true (some 2) (some 0) none⟩
    let l : Session Nat Nat := ⟨0, .empty true (some 3) (some 0) (some 1000000)⟩
    let small := (s.run .all moves).cache
    let large := (l.run (fun _ _ => false) moves).cache
    (start config = .ok s ∧ start larger = .ok l ∧ (∀ call, .call call ∈ moves → call.steady = true) ∧
      small.primary.unpinnedEntries = [(4, 40)] ∧ large.primary.unpinnedEntries = [(4, 40), (1, 10)]) ∧
    Nested small.primary.unpinnedEntries large.primary.unpinnedEntries ∧
    (small.primary.pinnedEntries = [] ∧ large.primary.pinnedEntries = []) ∧
    List.Forall₂ (fun few most => Reply.Covers most.1 few.1) (s.trace .all moves)
      (l.trace (fun _ _ => false) moves) ∧
    (s.lookups .all {} moves).hits ≤ (l.lookups (fun _ _ => false) {} moves).hits ∧
    small.counters.hits ≤ large.counters.hits := by
  intro config larger moves s l small large
  have started : start config = .ok s := rfl
  have also : start larger = .ok l := rfl
  have sizes : ∀ most, larger.cacheSize = some most → ∃ few, config.cacheSize = some few ∧ few ≤ most := by
    intro most capped
    obtain rfl : 3 = most := Option.some.inj capped
    exact ⟨2, rfl, by decide⟩
  have steady : ∀ call, .call call ∈ moves → call.steady = true := by simp [moves, Call.steady]
  obtain ⟨nested, bare, told, hits, word⟩ :=
    runNested .all (fun _ _ => false) started also ⟨rfl, rfl⟩ ⟨rfl, rfl⟩ sizes steady
  have few : small.primary.unpinnedEntries = [(4, 40)] := by decide
  have most : large.primary.unpinnedEntries = [(4, 40), (1, 10)] := by decide
  have counted : (l.lookups (fun _ _ => false) {} moves).hits < UInt64.size := by decide
  refine ⟨⟨started, also, steady, few, most⟩, nested, bare, told, hits, ?_⟩
  dsimp only [small, large]
  exact word counted

end Session
end TieredCache
