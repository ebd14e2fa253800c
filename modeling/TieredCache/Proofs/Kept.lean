import TieredCache.Proofs.Victims

/-! Asking for a key takes nothing away. A get that brings an entry back, and a pin, leave to be found what
was there: the one entry that may be driven out of the shelf finds a place in the line, for the entry
brought back has just left one there. Only what had expired is reported. -/
namespace TieredCache
open Keyed (Apart find without)
variable {K V A : Type}

namespace Line
variable {l : Line K V} {filter : Filter K V} {now : Nat}

def Roomy (l : Line K V) : Prop := ∀ most, l.bound = some most → l.waiting.length < most

/- Where there is room only the expired make way. -/
theorem offerRoomy (timely : l.Timely now) (roomy : l.Roomy) {k : K} {v : V} (accepted : filter k v = true) :
    l.offer filter now k v = ((l.waiting.filter (fun a => a.expired l.lifetime now)).map Admission.key,
      { l with waiting := l.live now ++ [⟨k, v, now⟩] }) := by
  obtain ⟨gone, kept⟩ := timely.parted
  have opened : l.bound ≠ some 0 := fun shut => absurd (roomy 0 shut) (Nat.not_lt_zero _)
  have fewer : (l.live now).length ≤ l.waiting.length := List.length_filter_le _ _
  have within : Within { l with waiting := l.live now ++ [⟨k, v, now⟩] } := by
    intro most bound
    have room := roomy most bound
    simp only [List.length_append, List.length_singleton]
    omega
  unfold offer enqueue
  rw [if_pos ⟨accepted, opened⟩, gone, kept]
  dsimp only
  rw [within.fit, List.append_nil]

variable [BEq K]

/- One entry at most comes, and it waits with those that are live; whoever leaves had expired. -/
theorem receiveRoomy [EquivBEq K] (timely : l.Timely now) (roomy : l.Roomy)
    (accepts : ∀ k v, filter k v = true) {victims : List (K × V)} (few : victims.length ≤ 1) :
    (∀ a ∈ l.live now, a ∈ (l.receive filter now victims).2.waiting) ∧
    (∀ e ∈ victims, ⟨e.1, e.2, now⟩ ∈ (l.receive filter now victims).2.waiting) ∧
    ∀ j ∈ (l.receive filter now victims).1, l.late now j := by
  match victims with
  | [] => exact ⟨fun a mem => (List.mem_filter.mp mem).1, nofun, nofun⟩
  | [d] =>
    have received : l.receive filter now [d] =
        ((l.waiting.filter (fun a => a.expired l.lifetime now)).map Admission.key ++ [],
          { l with waiting := l.live now ++ [⟨d.1, d.2, now⟩] }) := by
      unfold receive
      rw [offerRoomy timely roomy (accepts d.1 d.2)]
      rfl
    rw [received]
    refine ⟨fun a mem => List.mem_append_left _ mem, fun e alone => ?_, fun j mem => ?_⟩
    · rw [List.mem_singleton.mp alone]
      exact List.mem_append_right _ (List.mem_singleton_self _)
    · rw [List.append_nil] at mem
      obtain ⟨a, gone, rfl⟩ := List.mem_map.mp mem
      obtain ⟨waits, expired⟩ := List.mem_filter.mp gone
      exact ⟨a, waits, BEq.refl _, expired⟩
  | _ :: _ :: _ => simp at few

theorem lateSooner {k j : K} (late : (l.remove k).late now j) : l.late now j := by
  obtain ⟨a, waits, at_j, expired⟩ := late
  exact ⟨a, (Keyed.withoutMem.mp waits).1, at_j, expired⟩

end Line

namespace Plain
variable [BEq K] [EquivBEq K] {p : Plain K V} {filter : Filter K V} {now : Nat} {k : K}

/-- Whatever was to be found is there after the turn, and only what had expired was reported. -/
structure Keeps (p : Plain K V) (now : Nat) (turn : Turn K V A) : Prop where
  kept : ∀ j w, p.has now j w → turn.plain.has now j w
  reported : ∀ j, .reclaimed j ∈ turn.events → p.line.late now j

theorem settleKeeps (timely : p.line.Timely now) (roomy : p.line.Roomy) (accepts : ∀ k v, filter k v = true)
    (few : p.shelf.surplus.length ≤ 1) : p.Keeps now (p.settle filter now) := by
  obtain ⟨waiting, taken, gone⟩ := Line.receiveRoomy timely roomy accepts few
  have lifetime : (p.settle filter now).plain.line.lifetime = p.line.lifetime :=
    (Line.receiveKeeps filter now p.shelf.surplus p.line).2.1
  constructor
  · rintro j w ⟨e, mem, at_j, value⟩
    refine ⟨e, ?_, at_j, value⟩
    rw [liveMem] at mem ⊢
    rcases mem with shelved | ⟨a, waits, fresh, rfl⟩
    · rcases List.mem_append.mp (p.shelf.fittedEntries.mem_iff.mpr shelved) with stays | leaves
      · exact .inl stays
      · exact .inr ⟨_, taken e leaves, lifetime ▸ timely.fresh e.1 e.2, rfl⟩
    · have live : a ∈ p.line.live now := List.mem_filter.mpr ⟨waits, congrArg not fresh⟩
      exact .inr ⟨a, waiting a live, lifetime ▸ fresh, rfl⟩
  · intro j heard
    rcases List.mem_append.mp heard with evicted | reported
    · obtain ⟨e, _, other⟩ := List.mem_map.mp evicted
      cases other
    · obtain ⟨i, lost, same⟩ := List.mem_map.mp reported
      cases same
      exact gone j lost

theorem withdrawKept {j : K} {w : V} (held : p.has now j w) (other : (k == j) = false) :
    (p.withdraw now k).plain.has now j w := by
  obtain ⟨shelf, _, line⟩ := p.withdrawKeeps now k
  obtain ⟨e, mem, at_j, value⟩ := held
  have apart : (e.1 == k) = false := by
    rw [BEq.congr_left at_j]
    exact Keyed.unequalSymm other
  refine ⟨e, ?_, at_j, value⟩
  rw [liveMem] at mem ⊢
  rw [shelf, line]
  rcases mem with shelved | ⟨a, waits, fresh, rfl⟩
  · exact .inl shelved
  · exact .inr ⟨a, Keyed.withoutMem.mpr ⟨waits, apart⟩, fresh, rfl⟩

omit [EquivBEq K] in
theorem withdrawReported (p : Plain K V) (now : Nat) (k : K) {j : K}
    (heard : .reclaimed j ∈ (p.withdraw now k).events) : p.line.late now j := by
  unfold withdraw at heard
  cases found : find Admission.key p.line.waiting k with
  | none =>
    rw [found] at heard
    exact absurd heard List.not_mem_nil
  | some a =>
    rw [found] at heard
    dsimp only at heard
    split at heard
    · rename_i expired
      obtain ⟨waits, at_k⟩ := Keyed.findMem found
      obtain ⟨i, alone, same⟩ := List.mem_map.mp heard
      cases same
      rw [List.mem_singleton.mp alone]
      exact ⟨a, waits, at_k, expired⟩
    · exact absurd heard List.not_mem_nil

/- What could be found of a key is what a withdrawal of it hands over. -/
theorem withdrawnAway (single : p.Single) (absent : p.shelf.find? k = none) {j : K} {w : V}
    (held : p.has now j w) (same : (k == j) = true) : (p.withdraw now k).answer = some w := by
  have found := hasLookup single (held.congr (BEq.symm same))
  rw [lookup, absent, Option.none_or, ← withdrawAnswer single now k] at found
  exact found

omit [EquivBEq K] in
theorem enterKept {v : V} {j : K} {w : V} (held : p.has now j w) : (p.enter k v).has now j w := by
  obtain ⟨e, mem, at_j, value⟩ := held
  refine ⟨e, ?_, at_j, value⟩
  rw [liveMem] at mem ⊢
  rcases mem with shelved | waits
  · exact .inl ((p.shelf.enterEntries k v (p.isPinned k)).mem_iff.mpr (List.mem_cons_of_mem _ shelved))
  · exact .inr waits

theorem entered (p : Plain K V) (now : Nat) (k : K) (v : V) : (p.enter k v).has now k v := by
  have shelved := (p.shelf.enterEntries k v (p.isPinned k)).mem_iff.mpr (List.mem_cons_self ..)
  exact ⟨(k, v), liveMem.mpr (.inl shelved), BEq.refl k, rfl⟩

omit [EquivBEq K] in
theorem has.placed {q : Plain K V} {j : K} {w : V} (held : p.has now j w)
    (entries : q.shelf.entries.Perm p.shelf.entries) (line : q.line = p.line) : q.has now j w :=
  held.mono (fun _ => liveSub (fun _ => entries.mem_iff.mpr) (fun _ waits => line ▸ waits)
    (congrArg Line.lifetime line.symm))

/- An entry withdrawn and entered again is where it can be found, with all others. -/
theorem broughtBack (single : p.Single) (absent : p.shelf.find? k = none) {v : V}
    (answer : (p.withdraw now k).answer = some v) {q : Plain K V}
    (shelf : q.shelf = (p.withdraw now k).plain.shelf) (line : q.line = (p.withdraw now k).plain.line)
    {j : K} {w : V} (held : p.has now j w) : (q.enter k v).has now j w := by
  cases same : k == j with
  | true =>
    have value := answer.symm.trans (withdrawnAway single absent held same)
    cases value
    exact (entered q now k v).congr same
  | false => exact enterKept ((withdrawKept held same).placed (.of_eq (congrArg Shelf.entries shelf)) line)

/- If nothing was withdrawn, nothing was to be found. -/
theorem withdrawnNone (single : p.Single) (absent : p.shelf.find? k = none)
    (answer : (p.withdraw now k).answer = none) {j : K} {w : V} (held : p.has now j w) :
    (p.withdraw now k).plain.has now j w := by
  cases same : k == j with
  | true => exact absurd (answer.symm.trans (withdrawnAway single absent held same)) nofun
  | false => exact withdrawKept held same

/- The entry that was withdrawn has left room. -/
theorem withdrawRoomy (within : p.line.Within) (apart : Apart Admission.key p.line.waiting)
    {v : V} (answer : (p.withdraw now k).answer = some v) : (p.withdraw now k).plain.line.Roomy := by
  have line := (p.withdrawKeeps now k).2.2
  have fewer := Keyed.withoutLength apart k
  unfold withdraw at answer
  cases found : find Admission.key p.line.waiting k with
  | none =>
    rw [found] at answer
    cases answer
  | some a =>
    rw [found] at fewer
    rw [line]
    intro most bound
    exact Nat.le_trans (Nat.le_of_eq fewer) (within most bound)

variable [Identity K]

theorem fetchKeeps (sound : p.Sound) (fits : p.Fits) (timely : p.line.Timely now)
    (accepts : ∀ k v, filter k v = true) (k : K) : p.Keeps now (p.fetch filter now k) := by
  have ⟨shelf, _, line⟩ := p.withdrawKeeps now k
  have expired {j : K} := p.withdrawReported now k (j := j)
  unfold fetch
  cases absent : p.shelf.find? k with
  | some v =>
    have perm := Shelf.touchEntries sound.single.recent k
    exact ⟨fun j w held => held.placed perm rfl, fun j heard => absurd heard List.not_mem_nil⟩
  | none =>
    dsimp only
    cases answer : (p.withdraw now k).answer with
    | none => exact ⟨fun j w => withdrawnNone sound.single absent answer, fun j => expired⟩
    | some v =>
      let promoted := ((p.withdraw now k).plain.count .hit 1).count .promotion 1
      have sooner : promoted.line.Timely now := line ▸ timely.fewer List.filter_sublist rfl
      have roomy := withdrawRoomy sound.within sound.single.apart.2 answer
      have few := (enterSheds (p := promoted) (fitsShelf shelf fits) k v).once
      have settled := settleKeeps (p := promoted.enter k v) sooner roomy accepts few
      constructor
      · exact fun j w held => settled.kept j w (broughtBack sound.single absent answer rfl rfl held)
      · intro j heard
        rcases List.mem_append.mp heard with first | second
        · exact expired first
        · have late : promoted.line.late now j := settled.reported j second
          have left : promoted.line = p.line.remove k := line
          rw [left] at late
          exact Line.lateSooner late

theorem holdKeeps (sound : p.Sound) (now : Nat) (k : K) : p.Keeps now (p.hold now k) := by
  have expired {j : K} := p.withdrawReported now k (j := j)
  have marked (q : Plain K V) {j : K} {w : V} (held : q.has now j w) : (q.mark k).has now j w := by
    obtain ⟨shelf, line⟩ := q.markKeeps k
    exact held.placed (.of_eq (congrArg Shelf.entries shelf)) line
  unfold hold
  cases absent : p.shelf.find? k with
  | some v =>
    have perm := Shelf.pinEntries sound.single.recent k
    exact ⟨fun j w held => marked { p with shelf := p.shelf.pin k } (held.placed perm rfl),
      fun j heard => absurd heard List.not_mem_nil⟩
  | none =>
    dsimp only
    cases answer : (p.withdraw now k).answer with
    | none =>
      exact ⟨fun j w held => marked _ (withdrawnNone sound.single absent answer held), fun j => expired⟩
    | some v =>
      dsimp only
      rw [Plain.enterMarked]
      obtain ⟨shelf, line⟩ := ((p.withdraw now k).plain.count .promotion 1).markKeeps k
      exact ⟨fun j w held => broughtBack sound.single absent answer shelf line held, fun j => expired⟩

/- When the same is found everywhere, as much is held. -/
omit [Identity K] in
theorem sizeFound {q : Plain K V} (first : p.Single) (second : q.Single)
    (same : ∀ k, p.lookup now k = q.lookup now k) : p.size now = q.size now := by
  have each : ∀ k, (find Prod.fst (p.live now) k).isSome = (find Prod.fst (q.live now) k).isSome := by
    intro k
    have found := congrArg Option.isSome (same k)
    rw [lookupFind, lookupFind, Option.isSome_map, Option.isSome_map] at found
    exact found
  have length (r : Plain K V) : r.size now = (r.live now).length := by
    simp [size, live, Shelf.entries, Nat.add_assoc]
  rw [length, length, Keyed.sameLength (first.liveApart now) (second.liveApart now) each]

end Plain

namespace Session
variable [BEq K] [Identity K]

/-- The call leaves to be found what was there, and reports nothing that could still be found. -/
structure Undisturbed (filter : Filter K V) (s : Session K V) (call : Call K V) : Prop where
  peek : ∀ j, (s.after filter call).answer filter (.peek j) = s.answer filter (.peek j)
  size : (s.after filter call).answer filter .size = s.answer filter .size
  keys : ∃ before after, s.answer filter .keys = .keys before ∧
    (s.after filter call).answer filter .keys = .keys after ∧
    ∀ j, after.keys.any (· == j) = before.keys.any (· == j)
  reported : ∀ j, .reclaimed j ∈ s.events filter call → s.cache.Late s.now j

variable [EquivBEq K] {s r : Session K V} {p q : Plain K V}

theorem Tracks.samePeek (tracks : s.Tracks p) (other : r.Tracks q) (filter : Filter K V) {j : K}
    (same : p.lookup s.now j = q.lookup r.now j) :
    s.answer filter (.peek j) = r.answer filter (.peek j) := by
  have told : (q.step filter r.now (.peek j)).answer = (p.step filter s.now (.peek j)).answer := by
    simp only [Plain.step, Plain.given]
    split
    · exact congrArg Reply.value same.symm
    · rfl
  have plain : (p.step filter s.now (.peek j)).answer.isListing = false := by
    simp only [Plain.step, Plain.given]
    split <;> rfl
  exact (tracks.answers filter _ rfl plain).trans (other.answers filter _ told plain).symm

theorem Tracks.undisturbed (tracks : s.Tracks p) (filter : Filter K V) {call : Call K V}
    (other : call.purges = false) {op : KeyedOp} {keys : List K} {turn : Turn K V (Reply K V)}
    (stepped : p.step filter s.now call = p.given op keys turn)
    (gained : ∀ j w, turn.plain.has s.now j w → p.has s.now j w) (keeps : p.Keeps s.now turn) :
    s.Undisturbed filter call := by
  have later := tracks.after filter call
  have heard := tracks.events filter other
  rw [stepped] at later heard
  have gained : ∀ j w, (p.given op keys turn).plain.has s.now j w → p.has s.now j w := by
    unfold Plain.given
    split
    · exact gained
    · exact fun j w held => held
  have keeps : p.Keeps s.now (p.given op keys turn) := by
    unfold Plain.given
    split
    · exact keeps
    · exact ⟨fun j w held => held, fun j heard => absurd heard List.not_mem_nil⟩
  have same : ∀ j, (p.given op keys turn).plain.lookup s.now j = p.lookup s.now j := by
    intro j
    apply Option.ext
    intro w
    constructor
    · exact fun found => Plain.hasLookup tracks.sound.single (gained j w (Plain.lookupHas found))
    · exact fun found => Plain.hasLookup later.sound.single (keeps.kept j w (Plain.lookupHas found))
  have before := tracks.shows.listingKeys s.now
  have after := later.shows.listingKeys s.now
  constructor
  · exact fun j => later.samePeek tracks filter (same j)
  · have size := Plain.sizeFound later.sound.single tracks.sound.single same
    exact congrArg Reply.count ((later.shows.size s.now).trans (size.trans (tracks.shows.size s.now).symm))
  · refine ⟨_, _, rfl, rfl, fun j => ?_⟩
    refine (after.any_eq (f := (· == j))).trans (Eq.trans ?_ (before.any_eq (f := (· == j))).symm)
    rw [← Plain.lookupListed, ← Plain.lookupListed, same]
  · intro j reported
    rw [heard] at reported
    exact tracks.late s.now j (keeps.reported j reported)

theorem runUndisturbed (filter : Filter K V) {config : Config} (started : start config = .ok s)
    (moves : List (Move K V)) (k : K) :
    ((∀ j v, filter j v = true) → (s.run filter moves).Undisturbed filter (.get k)) ∧
    (s.run filter moves).Undisturbed filter (.pin k) := by
  obtain ⟨p, tracks, timely⟩ := runReached filter started moves
  have ⟨_, sound, fits⟩ := tracks
  constructor
  · intro accepts
    have ⟨kept, reported⟩ := Plain.fetchKeeps sound fits timely accepts k
    exact tracks.undisturbed filter rfl rfl (fun j w => Plain.fetchHas sound.single filter k) ⟨kept, reported⟩
  · have ⟨kept, reported⟩ := Plain.holdKeeps sound (s.run filter moves).now k
    exact tracks.undisturbed filter rfl rfl (fun j w => Plain.holdHas sound.single k) ⟨kept, reported⟩

/- Key 1 comes back, drives out 3 and makes room for it where the tier is full; 2 has expired by then and is
reported. A pin of 1 drives nothing out. -/
theorem runUndisturbedSmall :
    let config : Config := { lru := true, cacheSize := some 1, softSize := some 2, reclaimAfter := some 2 }
    let filter : Filter Nat Nat := Filter.all
    let moves : List (Move Nat Nat) :=
      [.call (.put 2 20), .call (.put 1 10), .wait 1000000, .call (.put 3 30), .wait 1000000]
    let s : Session Nat Nat := ⟨0, .empty true (some 1) (some 2) (some 2000000)⟩
    let final := s.run filter moves
    (start config = .ok s ∧ (∀ j v, filter j v = true) ∧
      final.events filter (.get 1) = [.evicted 3 30, .reclaimed 2] ∧ final.answer filter .size = .count 2) ∧
    final.Undisturbed filter (.get 1) ∧ final.Undisturbed filter (.pin 1) := by
  intro config filter moves s final
  have started : start config = .ok s := rfl
  have accepts : ∀ j v, filter j v = true := fun _ _ => rfl
  obtain ⟨get, pin⟩ := runUndisturbed filter started moves 1
  exact ⟨⟨started, accepts, by decide, by decide⟩, get accepts, pin⟩

end Session
end TieredCache
