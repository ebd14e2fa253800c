import TieredCache.Proofs.Rivals
import TieredCache.Proofs.Victims

/-! Keys in use stay. Between two uses of a key the other keys used are its rivals, and while these are
fewer than the primary tier has room for, the key is in that tier after each call and never evicted, whatever
else is done and however much time passes. -/
namespace TieredCache
open Keyed (Apart find without)
variable {K V : Type} [BEq K]

/-- The keys that a call uses: those it can bring before others. -/
def Call.brings : Call K V → List K
  | .get k | .put k _ | .unpin k => [k]
  | .putAll entries => entries.map Prod.fst
  | _ => []

/-- The call does not take the key out, and leaves the tier its size. -/
def Call.spares (k : K) : Call K V → Bool
  | .remove j => !(j == k)
  | .clear | .setCacheSize _ => false
  | _ => true

namespace Plain
open TieredCache.Shelf (Passes)
variable {rivals : List K} {k j : K} {s : Shelf K V} {gone : List (K × V)} {p q : Plain K V}
variable (filter : Filter K V) (now : Nat)

theorem storeAllAppend (before after : List (K × V)) (p : Plain K V) :
    (p.storeAll filter now (before ++ after)).plain =
      ((p.storeAll filter now before).plain.storeAll filter now after).plain := by
  induction before generalizing p with
  | nil => rfl
  | cons e rest ih => exact ih (p.store filter now e.1 e.2).plain

theorem passesSettle (passes : s.Passes rivals k gone p.shelf) :
    s.Passes rivals k (gone ++ victims (p.settle filter now).events) (p.settle filter now).plain.shelf := by
  rw [settleVictims]
  exact passes.fitted

/- An absent key comes in out of the line or from a put, and then the shelf is fitted. -/
theorem passesArrive (passes : s.Passes rivals k gone p.shelf) (named : Named rivals k j)
    (absent : p.shelf.find? j = none) (v : V) (entered : q.shelf = ((p.withdraw now j).plain.enter j v).shelf) :
    s.Passes rivals k (gone ++ victims ((p.withdraw now j).events ++ (q.settle filter now).events))
      (q.settle filter now).plain.shelf := by
  have shelf := (p.withdrawKeeps now j).1
  have arrived : s.Passes rivals k gone q.shelf := by
    rw [entered]
    refine .entered ?_ v _ ?_ (.inr named)
    · rw [shelf]
      exact passes
    · rw [shelf]
      exact absent
  rw [victimsAppend, withdrawVictims, List.nil_append]
  exact passesSettle filter now arrived

theorem passesFetch (passes : s.Passes rivals k gone p.shelf) (named : Named rivals k j) :
    s.Passes rivals k (gone ++ victims (p.fetch filter now j).events) (p.fetch filter now j).plain.shelf := by
  have shelf := (p.withdrawKeeps now j).1
  have quiet := p.withdrawVictims now j
  unfold fetch
  cases absent : p.shelf.find? j with
  | some v => exact (passes.touched named).still
  | none =>
    dsimp only
    cases (p.withdraw now j).answer with
    | none =>
      dsimp only
      rw [quiet]
      exact (shelf ▸ passes).still
    | some v => exact passesArrive filter now passes named absent v rfl

theorem passesStore (passes : s.Passes rivals k gone p.shelf) (named : Named rivals k j) (v : V) :
    s.Passes rivals k (gone ++ victims (p.store filter now j v).events)
      (p.store filter now j v).plain.shelf := by
  unfold store
  cases absent : p.shelf.find? j with
  | some old => exact ((passes.replaced j v).touched named).still
  | none => exact passesArrive filter now passes named absent v rfl

theorem passesStoreAll (passes : s.Passes rivals k gone p.shelf) {entries : List (K × V)}
    (named : ∀ e ∈ entries, Named rivals k e.1) :
    s.Passes rivals k (gone ++ victims (p.storeAll filter now entries).events)
      (p.storeAll filter now entries).plain.shelf := by
  induction entries generalizing gone p with
  | nil => exact passes.still
  | cons e rest ih =>
    have first := passesStore filter now passes (named e (by simp)) e.2
    have later := ih first (fun d mem => named d (by simp [mem]))
    unfold storeAll
    rw [victimsAppend, ← List.append_assoc]
    exact later

theorem passesHold (passes : s.Passes rivals k gone p.shelf) (j : K) :
    s.Passes rivals k (gone ++ victims (p.hold now j).events) (p.hold now j).plain.shelf := by
  have shelf := (p.withdrawKeeps now j).1
  rw [(p.holdQuits now j).1]
  refine Passes.still ?_
  unfold hold
  cases absent : p.shelf.find? j with
  | some v =>
    rw [(markKeeps _ j).1]
    exact passes.pinned j
  | none =>
    dsimp only
    cases (p.withdraw now j).answer with
    | none =>
      rw [(markKeeps _ j).1, shelf]
      exact passes
    | some v =>
      rw [(markKeeps _ j).1]
      refine .entered ?_ v true ?_ (.inl rfl)
      · exact shelf ▸ passes
      · exact (congrArg (·.find? j) shelf).trans absent

theorem passesRelease (passes : s.Passes rivals k gone p.shelf) (named : Named rivals k j) :
    s.Passes rivals k (gone ++ victims (p.release filter now j).events)
      (p.release filter now j).plain.shelf := by
  let freed : Plain K V := { p with shelf := p.shelf.unpin j, pins := without id p.pins j }
  have unpinned : s.Passes rivals k gone freed.shelf := passes.unpinned named
  unfold release
  cases p.shelf.find? j with
  | some v => exact passesSettle filter now unpinned
  | none => exact unpinned.still

theorem passesDiscard (passes : s.Passes rivals k gone p.shelf) (other : (j == k) = false) :
    s.Passes rivals k (gone ++ victims (p.discard now j).events) (p.discard now j).plain.shelf := by
  let dropped : Plain K V := { p with shelf := p.shelf.remove j, pins := without id p.pins j }
  have shelf : (p.discard now j).plain.shelf = p.shelf.remove j := (dropped.withdrawKeeps now j).1
  rw [(p.discardQuits now j).1, shelf]
  exact (passes.removed other).still

variable [Identity K]

theorem passesGiven {op : KeyedOp} {keys : List K} {turn : Turn K V (Reply K V)}
    (passes : p.shelf.Passes rivals k (victims turn.events) turn.plain.shelf) :
    p.shelf.Passes rivals k (victims (p.given op keys turn).events) (p.given op keys turn).plain.shelf := by
  unfold given
  split
  · exact passes
  · exact .none

theorem stepPasses (p : Plain K V) {call : Call K V} (spared : call.spares k = true)
    (named : ∀ j ∈ call.brings, Named rivals k j) :
    p.shelf.Passes rivals k (victims (p.step filter now call).events)
      (p.step filter now call).plain.shelf := by
  cases call with
  | get j => exact passesGiven (passesFetch filter now .none (named j (by simp [Call.brings])))
  | put j v => exact passesGiven (passesStore filter now .none (named j (by simp [Call.brings])) v)
  | putAll entries =>
    exact passesGiven (passesStoreAll filter now .none (fun e mem => named e.1 (List.mem_map_of_mem mem)))
  | remove j => exact passesGiven (passesDiscard now .none (by simpa [Call.spares] using spared))
  | pin j => exact passesGiven (passesHold now .none j)
  | unpin j => exact passesGiven (passesRelease filter now .none (named j (by simp [Call.brings])))
  | isPinned j => exact passesGiven .none
  | containsKey j => exact passesGiven .none
  | peek j => exact passesGiven .none
  | clear => exact Bool.noConfusion spared
  | setCacheSize n => exact Bool.noConfusion spared
  | setSoftSize n =>
    have quiet := victimsReclaimed (V := V) (Line.fit { p.line with bound := n }).1
    show p.shelf.Passes rivals k (victims ((Line.fit { p.line with bound := n }).1.map .reclaimed)) p.shelf
    rw [quiet]
    exact .none
  | purge =>
    have quiet := victimsReclaimed (V := V) (p.line.purge now).1
    show p.shelf.Passes rivals k (victims ((p.line.purge now).1.map .reclaimed)) p.shelf
    rw [quiet]
    exact .none
  | _ => exact .none

theorem stepCapacity [EquivBEq K] (p : Plain K V) {call : Call K V} (spared : call.spares k = true) :
    (p.step filter now call).plain.shelf.capacity = p.shelf.capacity := by
  have named : ∀ j ∈ call.brings, Named call.brings k j :=
    fun j mem => .inr (List.any_eq_true.mpr ⟨j, mem, BEq.refl j⟩)
  exact (p.stepPasses filter now spared named).capacity

omit [BEq K] in
theorem givenEither (p : Plain K V) (op : KeyedOp) (keys : List K) (turn : Turn K V (Reply K V)) :
    (p.given op keys turn = turn ∧ ∀ j ∈ keys, Identity.valid j = true) ∨
    (p.given op keys turn).answer = .refused (.keyless op) := by
  unfold given
  split
  · rename_i valid
    exact .inl ⟨rfl, List.all_eq_true.mp valid⟩
  · exact .inr rfl

variable [EquivBEq K]

omit [Identity K] in
theorem holdPlaces (p : Plain K V) (k : K) (found : (p.hold now k).answer = true) :
    (p.hold now k).plain.Places k True := by
  have marked (q : Plain K V) : (q.mark k).isPinned k = true := by
    rw [markPinned, BEq.refl, Bool.or_true]
  have kept (q : Plain K V) (held : ∃ e ∈ q.shelf.entries, (e.1 == k) = true) : (q.mark k).Places k True := by
    refine ⟨?_, fun _ free => absurd ((marked q).symm.trans free) (by decide)⟩
    rw [(q.markKeeps k).1, Shelf.findEntries, Option.isSome_map]
    exact List.find?_isSome.mpr held
  unfold hold at found ⊢
  cases held : p.shelf.find? k with
  | some v =>
    refine kept _ ?_
    rw [Shelf.find?, Option.map_eq_some_iff] at held
    obtain ⟨e, first, _⟩ := held
    cases recent : find Prod.fst p.shelf.recent k with
    | some d =>
      refine ⟨d, Shelf.entriesMem.mpr (.inr (List.mem_append_left _ ?_)), (Keyed.findMem recent).2⟩
      rw [recent]
      exact List.mem_singleton_self d
    | none =>
      rw [recent, Option.none_or] at first
      obtain ⟨aside, at_k⟩ := Keyed.findMem first
      exact ⟨e, Shelf.entriesMem.mpr (.inr (List.mem_append_right _ aside)), at_k⟩
  | none =>
    rw [held] at found
    dsimp only at found ⊢
    cases answer : (p.withdraw now k).answer with
    | none => simp [answer] at found
    | some v => exact kept _ ⟨(k, v), Shelf.entriesMem.mpr (.inr (List.mem_cons_self ..)), BEq.refl k⟩

omit [Identity K] [EquivBEq K] in
theorem Places.leading {p : Plain K V} {leads : Prop} (places : p.Places k leads) (lead : leads) :
    p.Places k True := ⟨places.kept, fun _ => places.first lead⟩

theorem Places.retains {p : Plain K V} (places : p.Places k True) (sound : p.Sound)
    (spare : ∀ most, p.shelf.capacity = some most → rivals.length < most) : p.shelf.Retains rivals k := by
  refine ⟨sound.single.apart.1, spare, ?_⟩
  cases pinned : p.isPinned k with
  | true =>
    obtain ⟨e, found, at_k⟩ := (sound.aside places.kept).1 pinned
    exact .inl ⟨e, (Keyed.findMem found).1, at_k⟩
  | false =>
    obtain ⟨e, head, at_k⟩ := places.first trivial pinned
    obtain ⟨rest, split⟩ := List.head?_eq_some_iff.mp head
    rw [split]
    exact .inr (Behind.first at_k rest)

end Plain

namespace Session
variable [Identity K]

/-- Using the key now would move its entry, if there is one, before all others. -/
def Moves (s : Session K V) (k : K) : Prop := s.cache.primary.contains k = false ∨ s.cache.isLru = true

/-- The calls that make a key the one used last. -/
inductive Touches (filter : Filter K V) (s : Session K V) (k : K) : Call K V → Prop where
  | got {v : V} (found : s.answer filter (.get k) = .value (some v)) (moves : s.Moves k) :
      Touches filter s k (.get k)
  | put {v : V} {old : Option V} (stored : s.answer filter (.put k v) = .value old) (moves : s.Moves k) :
      Touches filter s k (.put k v)
  | batch {entries : List (K × V)} {v : V} (stored : s.answer filter (.putAll (entries ++ [(k, v)])) = .done)
      (moves : (s.after filter (.putAll entries)).Moves k) : Touches filter s k (.putAll (entries ++ [(k, v)]))
  | unpinned (cached : s.cache.primary.contains k = true) (pinned : s.answer filter (.unpin k) = .flag true) :
      Touches filter s k (.unpin k)
  | promoted (absent : s.cache.primary.contains k = false) (found : s.answer filter (.pin k) = .flag true) :
      Touches filter s k (.pin k)

/-- The other keys that the calls of a run use, each once. -/
def rivals (k : K) (moves : List (Move K V)) : List K :=
  (without id (moves.flatMap (fun | .wait _ => [] | .call call => call.brings)) k).eraseDups

variable [EquivBEq K] {s : Session K V} {p : Plain K V} {k : K}

omit [Identity K] in
theorem rivalsNamed {moves : List (Move K V)} {call : Call K V} (mem : .call call ∈ moves) {j : K}
    (brought : j ∈ call.brings) : Named (rivals k moves) k j := by
  cases at_k : j == k with
  | true => exact .inl at_k
  | false =>
    refine .inr (Keyed.distinctCovers (Keyed.withoutMem.mpr ⟨?_, at_k⟩))
    exact List.mem_flatMap.mpr ⟨_, mem, brought⟩

theorem Tracks.moving (tracks : s.Tracks p) (moves : s.Moves k) :
    (p.shelf.find? k).isSome = false ∨ p.shelf.byUse = true := by
  unfold Moves at moves
  rw [Recency.containsShown tracks.shows.primary, Cache.isLru, ← Recency.byUseShown tracks.shows.primary] at moves
  exact moves

/- A call that is answered and not refused does what it says. -/
theorem Tracks.accepted (tracks : s.Tracks p) (filter : Filter K V) {call : Call K V} {op : KeyedOp}
    {keys : List K} {turn : Turn K V (Reply K V)} {reply : Reply K V}
    (stepped : p.step filter s.now call = p.given op keys turn) (plain : turn.answer.isListing = false)
    (told : s.answer filter call = reply) (taken : reply ≠ .refused (.keyless op)) :
    p.step filter s.now call = turn ∧ turn.answer = reply ∧ ∀ j ∈ keys, Identity.valid j = true := by
  rcases p.givenEither op keys turn with ⟨same, valid⟩ | refused
  · have answered := tracks.answers filter call (congrArg Turn.answer (stepped.trans same)) plain
    exact ⟨stepped.trans same, answered.symm.trans told, valid⟩
  · have answered := tracks.answers filter call ((congrArg Turn.answer stepped).trans refused) rfl
    exact absurd (told.symm.trans answered) taken

theorem Tracks.touched (tracks : s.Tracks p) (filter : Filter K V) {call : Call K V}
    (touches : s.Touches filter k call) (opened : p.shelf.capacity ≠ some 0) :
    (p.step filter s.now call).plain.Places k True := by
  have ⟨shows, sound, fits⟩ := tracks
  cases touches with
  | got found moves =>
    obtain ⟨stepped, answer, _⟩ := tracks.accepted filter rfl rfl found nofun
    have fetched := (Plain.fetchAnswer sound.single filter s.now k).symm.trans (Reply.value.inj answer)
    have placed := p.fetchPlaces filter s.now sound fits opened (by rw [fetched]; rfl)
    rw [stepped]
    exact placed.leading (tracks.moving moves)
  | @put v old stored moves =>
    obtain ⟨stepped, _, _⟩ := tracks.accepted filter rfl rfl stored nofun
    have placed := p.storePlaces filter s.now sound fits opened k v
    rw [stepped]
    exact placed.leading (tracks.moving moves)
  | @batch entries v stored moves =>
    obtain ⟨stepped, _, valid⟩ := tracks.accepted filter rfl rfl stored nofun
    have each : ∀ e ∈ entries, Identity.valid e.1 = true :=
      fun e mem => valid e.1 (List.mem_map_of_mem (List.mem_append_left _ mem))
    obtain ⟨mid_sound, mid_fits⟩ := Plain.storeAllSound sound filter s.now each
    have middle := tracks.after filter (.putAll entries)
    have given : (p.step filter s.now (.putAll entries)).plain = (p.storeAll filter s.now entries).plain := by
      show (p.given .putAll (entries.map Prod.fst) _).plain = _
      unfold Plain.given
      rw [if_pos (by simpa using each)]
    rw [given] at middle
    have spares : (Call.putAll entries).spares k = true := rfl
    have capacity := p.stepCapacity filter s.now spares
    rw [given] at capacity
    have placed := (p.storeAll filter s.now entries).plain.storePlaces filter s.now mid_sound (mid_fits fits)
      (capacity ▸ opened) k v
    have last := placed.leading (middle.moving moves)
    rw [stepped]
    dsimp only
    rw [Plain.storeAllAppend]
    exact last
  | unpinned cached pinned =>
    obtain ⟨stepped, answer, _⟩ := tracks.accepted filter rfl rfl pinned nofun
    have marked := (p.releaseAnswer filter s.now k).symm.trans (Reply.flag.inj answer)
    rw [Recency.containsShown shows.primary] at cached
    have found : (p.lookup s.now k).isSome := by
      rw [sound.lookupPinned marked]
      exact cached
    rw [stepped]
    exact p.releasePlaces filter s.now sound fits opened found marked
  | promoted absent found =>
    obtain ⟨stepped, answer, _⟩ := tracks.accepted filter rfl rfl found nofun
    rw [stepped]
    exact p.holdPlaces s.now k (Reply.flag.inj answer)

theorem Tracks.retained (tracks : s.Tracks p) (filter : Filter K V) {others : List K}
    (retains : p.shelf.Retains others k) {moves : List (Move K V)}
    (spared : ∀ call, .call call ∈ moves → call.spares k = true ∧ ∀ j ∈ call.brings, Named others k j) :
    (s.run filter moves).cache.primary.contains k = true ∧
    ∀ told ∈ s.trace filter moves, ∀ e ∈ victims told.2, (e.1 == k) = false := by
  induction moves generalizing s p with
  | nil =>
    obtain ⟨e, mem, at_k⟩ := retains.held
    refine ⟨?_, nofun⟩
    show s.cache.primary.contains k = true
    rw [Recency.containsShown tracks.shows.primary, Shelf.findEntries, Option.isSome_map]
    exact List.find?_isSome.mpr ⟨e, mem, at_k⟩
  | cons move rest ih =>
    have later : ∀ call, .call call ∈ rest → _ := fun call mem => spared call (List.mem_cons_of_mem _ mem)
    cases move with
    | wait time =>
      obtain ⟨stays, quiet⟩ := ih (tracks.waited time) retains later
      refine ⟨stays, fun told mem => ?_⟩
      rcases List.mem_cons.mp mem with rfl | mem
      · nofun
      · exact quiet told mem
    | call call =>
      obtain ⟨spares, named⟩ := spared call (by simp)
      obtain ⟨still, gone⟩ := retains.passes (p.stepPasses filter s.now spares named)
      obtain ⟨stays, quiet⟩ := ih (tracks.call filter s.now call) still later
      refine ⟨stays, fun told mem => ?_⟩
      rcases List.mem_cons.mp mem with rfl | mem
      · have heard := (tracks.shows.step tracks.sound filter s.now call).events.perm
        exact fun e mem => gone e ((heard.filterMap Event.victim).mem_iff.mp mem)
      · exact quiet told mem

theorem runRetained (filter : Filter K V) {config : Config} (started : start config = .ok s)
    (before later : List (Move K V)) {touch : Call K V} (touches : (s.run filter before).Touches filter k touch)
    (spared : ∀ call, .call call ∈ later → call.spares k = true)
    (few : ∀ most, (s.run filter (before ++ [.call touch])).cache.cacheSize = some most →
      (rivals k later).length < most) :
    let held := s.run filter (before ++ [.call touch])
    (∀ steps, (held.run filter (later.take steps)).cache.primary.contains k = true) ∧
    ∀ told ∈ held.trace filter later, ∀ e ∈ victims told.2, (e.1 == k) = false := by
  intro held
  obtain ⟨tracks, _⟩ := startTracks started
  obtain ⟨middle, _⟩ := tracks.run filter before
  generalize (Plain.run filter s.now _ before).2 = p at middle
  have again : held = (s.run filter before).after filter touch := runAppend filter s before [.call touch]
  have after : held.Tracks (p.step filter (s.run filter before).now touch).plain :=
    again ▸ middle.after filter touch
  have spare : ∀ most, (p.step filter (s.run filter before).now touch).plain.shelf.capacity = some most →
      (rivals k later).length < most :=
    fun most capped => few most ((Recency.capacityShown after.shows.primary).symm.trans capped)
  have spares : touch.spares k = true := by cases touches <;> rfl
  have capacity := p.stepCapacity filter (s.run filter before).now spares
  have opened : p.shelf.capacity ≠ some 0 :=
    fun shut => Nat.not_lt_zero _ (spare 0 (capacity.trans shut))
  have retains := (middle.touched filter touches opened).retains after.sound spare
  have named : ∀ call, .call call ∈ later → call.spares k = true ∧ ∀ j ∈ call.brings, Named (rivals k later) k j :=
    fun call mem => ⟨spared call mem, fun j brought => rivalsNamed mem brought⟩
  refine ⟨fun steps => ?_, (after.retained filter retains named).2⟩
  exact (after.retained filter retains (fun call mem => named call (List.mem_of_mem_take mem))).1

omit [BEq K] [Identity K] [EquivBEq K] in
/- There is room for one rival. Key 1 comes back from among the pinned, goes there and comes back again; key
3 goes before it by each kind of use; other keys are pinned and removed meanwhile, the bound falls to zero. -/
theorem runRetainedSmall :
    let config : Config := { lru := true, cacheSize := some 2, reclaimAfter := some 1 }
    let filter : Filter Nat Nat := Filter.all
    let before : List (Move Nat Nat) := [.call (.putAll [(1, 10), (2, 20)]), .call (.pin 1), .call (.put 3 30)]
    let later : List (Move Nat Nat) :=
      [.call (.get 3), .call (.pin 2), .call (.put 3 31), .wait 1000000, .call (.get 1), .call (.pin 3),
        .call (.unpin 3), .call (.remove 2), .call (.pin 1), .call (.unpin 1), .call (.remove 3),
        .call (.setSoftSize (some 0)), .call (.putAll [(3, 32), (3, 33)])]
    let s : Session Nat Nat := ⟨0, .empty true (some 2) none (some 1000000)⟩
    let held := s.run filter (before ++ [.call (.unpin 1)])
    (start config = .ok s ∧ (s.run filter before).Touches filter 1 (.unpin 1) ∧
      (∀ call, .call call ∈ later → call.spares 1 = true) ∧
      (∀ most, held.cache.cacheSize = some most → (rivals 1 later).length < most) ∧
      (held.run filter later).cache.primary.unpinnedEntries = [(3, 33), (1, 10)]) ∧
    (∀ steps, (held.run filter (later.take steps)).cache.primary.contains 1 = true) ∧
    ∀ told ∈ held.trace filter later, ∀ e ∈ victims told.2, (e.1 == 1) = false := by
  intro config filter before later s held
  have started : start config = .ok s := rfl
  have touches : (s.run filter before).Touches filter 1 (.unpin 1) := .unpinned (by decide) (by decide)
  have spared : ∀ call, .call call ∈ later → call.spares 1 = true := by simp [later, Call.spares]
  have alone : (rivals 1 later).length < 2 := by decide
  have room : held.cache.cacheSize = some 2 := by decide
  have few : ∀ most, held.cache.cacheSize = some most → (rivals 1 later).length < most := by
    intro most capped
    rw [room] at capped
    exact Option.some.inj capped ▸ alone
  exact ⟨⟨started, touches, spared, few, by decide⟩, runRetained filter started before later touches spared few⟩

end Session
end TieredCache
