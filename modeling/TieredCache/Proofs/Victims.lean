import TieredCache.Proofs.Nested
import TieredCache.Proofs.Observers
import TieredCache.Proofs.Pinned
import TieredCache.Proofs.Purging

/-! Who leaves the primary tier when one key is asked for. One entry comes at most, so that one leaves at
most: the last one, or the one that came if the tier keeps nothing. Who stays keeps the order, and the key
that came stands first. -/
namespace TieredCache
open Keyed (Apart find without)
variable {K V A : Type}

def Event.victim : Event K V → Option (K × V)
  | .evicted k v => some (k, v)
  | .reclaimed _ => none

/-- The entries heard evicted, in order. -/
def victims (events : List (Event K V)) : List (K × V) := events.filterMap Event.victim

theorem victimsAppend (first second : List (Event K V)) :
    victims (first ++ second) = victims first ++ victims second := List.filterMap_append

theorem victimsReclaimed (keys : List K) : victims (keys.map .reclaimed : List (Event K V)) = [] := by
  simp [victims, List.filterMap_map, Function.comp_def, Event.victim]

theorem victimsEvicted (entries : List (K × V)) :
    victims (entries.map (fun e => .evicted e.1 e.2)) = entries := by
  simp [victims, List.filterMap_map, Function.comp_def, Event.victim]

namespace Shelf
variable {s t : Shelf K V}

/-- What stays and what leaves when one entry more stands first on a shelf that did fit. -/
inductive Crowded (s : Shelf K V) (e : K × V) : List (K × V) → List (K × V) → Prop where
  | room (opened : s.capacity ≠ some 0) : Crowded s e (e :: s.recent) []
  | full (opened : s.capacity ≠ some 0) {front : List (K × V)} {last : K × V}
      (split : s.recent = front ++ [last]) : Crowded s e (e :: front) [last]
  | shut (closed : s.capacity = some 0) (empty : s.recent = []) : Crowded s e [] [e]

theorem crowded {e : K × V} (fits : ∀ most, s.capacity = some most → s.recent.length ≤ most)
    (capacity : t.capacity = s.capacity) (recent : t.recent = e :: s.recent) :
    s.Crowded e t.fitted.recent t.surplus := by
  unfold fitted surplus
  rw [capacity]
  cases capped : s.capacity with
  | none =>
    dsimp only
    rw [recent]
    exact .room (by simp [capped])
  | some most =>
    have short := fits most capped
    dsimp only
    rw [recent]
    cases most with
    | zero =>
      have empty := List.length_eq_zero_iff.mp (Nat.le_zero.mp short)
      rw [empty]
      exact .shut capped empty
    | succ n =>
      have opened : s.capacity ≠ some 0 := by simp [capped]
      rw [List.take_succ_cons, List.drop_succ_cons]
      rcases Nat.lt_or_ge n s.recent.length with full | room
      · have some : s.recent ≠ [] := List.ne_nil_of_length_pos (Nat.zero_lt_of_lt full)
        obtain ⟨front, last, split⟩ := (List.eq_nil_or_concat s.recent).resolve_left some
        have length : front.length = n := by
          rw [split, List.concat_eq_append, List.length_append, List.length_singleton] at short full
          omega
        rw [List.concat_eq_append] at split
        rw [split, List.take_left' length, List.drop_left' length]
        exact .full opened split
      · rw [List.take_of_length_le room, List.drop_of_length_le room]
        exact .room opened

variable [BEq K]

/-- What one key asked for does to the order: at most one entry leaves, the last one or, if nothing is
kept, that of the key with the value now current; the others are as they were. -/
structure Sheds (s : Shelf K V) (k : K) (current : Option V) (left gone : List (K × V)) : Prop where
  once : gone.length ≤ 1
  last : s.capacity ≠ some 0 → ∀ e ∈ gone, s.recent.getLast? = some e
  itself : s.capacity = some 0 → ∀ e ∈ gone, (e.1 == k) = true ∧ current = some e.2
  order : without Prod.fst s.recent k = without Prod.fst left k ++ without Prod.fst gone k

variable {k : K} {current : Option V} {left gone : List (K × V)}

theorem Sheds.none (same : without Prod.fst left k = without Prod.fst s.recent k) :
    s.Sheds k current left [] where
  once := Nat.zero_le 1
  last := fun _ e mem => absurd mem List.not_mem_nil
  itself := fun _ e mem => absurd mem List.not_mem_nil
  order := by
    rw [same]
    exact (List.append_nil _).symm

theorem Crowded.sheds {e : K × V} (crowded : s.Crowded e left gone) (at_k : (e.1 == k) = true) :
    s.Sheds k (some e.2) left gone := by
  have dropped (xs : List (K × V)) : without Prod.fst (e :: xs) k = without Prod.fst xs k := by
    rw [Keyed.withoutCons, at_k, if_pos rfl]
  cases crowded with
  | room opened => exact .none (dropped _)
  | @full opened front last split =>
    refine ⟨Nat.le_refl 1, fun _ d alone => ?_, fun closed => absurd closed opened, ?_⟩
    · rw [List.mem_singleton.mp alone, split]
      exact List.getLast?_concat
    · rw [dropped, split, Keyed.withoutAppend]
  | shut closed empty =>
    refine ⟨Nat.le_refl 1, fun opened => absurd closed opened, fun _ d alone => ?_, ?_⟩
    · rw [List.mem_singleton.mp alone]
      exact ⟨at_k, rfl⟩
    · rw [dropped, empty]
      rfl

omit [BEq K] in
theorem Crowded.first {e : K × V} (crowded : s.Crowded e left gone) (opened : s.capacity ≠ some 0) :
    left.head? = some e := by
  cases crowded with
  | room | full => rfl
  | shut closed => exact absurd closed opened

theorem touchOrder [EquivBEq K] (s : Shelf K V) (k : K) :
    without Prod.fst (s.touch k).recent k = without Prod.fst s.recent k := by
  unfold Shelf.touch
  split
  · have found : without Prod.fst (find Prod.fst s.recent k).toList k = [] := by
      cases found : find Prod.fst s.recent k with
      | none => rfl
      | some e => simp [without, (Keyed.findMem found).2]
    rw [Keyed.withoutAppend, found, List.nil_append, Keyed.withoutTwice]
  · rfl

end Shelf

namespace Plain
variable {p : Plain K V} (filter : Filter K V) (now : Nat)

theorem settleVictims (p : Plain K V) : victims (p.settle filter now).events = p.shelf.surplus := by
  have lost := victimsReclaimed (V := V) (p.line.receive filter now p.shelf.surplus).1
  unfold settle
  rw [victimsAppend, victimsEvicted]
  exact (congrArg (p.shelf.surplus ++ ·) lost).trans (List.append_nil _)

variable [BEq K]

theorem withdrawVictims (p : Plain K V) (k : K) : victims (p.withdraw now k).events = [] := by
  unfold withdraw
  cases find Admission.key p.line.waiting k with
  | none => rfl
  | some a =>
    dsimp only
    split
    · exact victimsReclaimed [k]
    · rfl

/- A pin and a removal take the entry of the key and no other. -/
theorem holdQuits (p : Plain K V) (k : K) : victims (p.hold now k).events = [] ∧
    without Prod.fst (p.hold now k).plain.shelf.recent k = without Prod.fst p.shelf.recent k := by
  have quiet := p.withdrawVictims now k
  obtain ⟨shelf, _, _⟩ := p.withdrawKeeps now k
  have recent := congrArg (fun shelf => without Prod.fst shelf.recent k) shelf
  have marked (q : Plain K V) := congrArg (fun shelf => without Prod.fst shelf.recent k) (q.markKeeps k).1
  unfold hold
  cases p.shelf.find? k with
  | some v =>
    exact ⟨rfl, (marked _).trans (Keyed.withoutTwice ..)⟩
  | none =>
    dsimp only
    cases (p.withdraw now k).answer with
    | none => exact ⟨quiet, (marked _).trans recent⟩
    | some v => exact ⟨quiet, (marked _).trans recent⟩

theorem discardQuits (p : Plain K V) (k : K) : victims (p.discard now k).events = [] ∧
    without Prod.fst (p.discard now k).plain.shelf.recent k = without Prod.fst p.shelf.recent k := by
  let dropped : Plain K V := { p with shelf := p.shelf.remove k, pins := without id p.pins k }
  obtain ⟨shelf, _, _⟩ := dropped.withdrawKeeps now k
  have recent := congrArg (fun shelf => without Prod.fst shelf.recent k) shelf
  exact ⟨dropped.withdrawVictims now k, recent.trans (Keyed.withoutTwice ..)⟩

/- Only an unpinned entry crowds the others. -/
theorem enterShelf (p : Plain K V) (k : K) (v : V) :
    (p.isPinned k = true ∧ (p.enter k v).shelf = { p.shelf with pinned := (k, v) :: p.shelf.pinned }) ∨
    (p.isPinned k = false ∧ (p.enter k v).shelf = { p.shelf with recent := (k, v) :: p.shelf.recent }) := by
  unfold enter Shelf.enter
  cases p.isPinned k with
  | true => exact .inl ⟨rfl, rfl⟩
  | false => exact .inr ⟨rfl, rfl⟩

variable [EquivBEq K]

theorem enterSheds (fits : p.Fits) (k : K) (v : V) :
    p.shelf.Sheds k (some v) (p.enter k v).shelf.fitted.recent (p.enter k v).shelf.surplus := by
  rcases p.enterShelf k v with ⟨_, entered⟩ | ⟨_, entered⟩
  · have still : Fits { p with shelf := { p.shelf with pinned := (k, v) :: p.shelf.pinned } } := fits
    obtain ⟨fitted, surplus⟩ := Shelf.fitsSurplus still
    rw [entered, fitted, surplus]
    exact .none rfl
  · have crowded := Shelf.crowded (t := (p.enter k v).shelf) fits (by rw [entered]) (by rw [entered])
    exact crowded.sheds (BEq.refl k)

theorem fetchSheds (single : p.Single) (fits : p.Fits) (k : K) :
    p.shelf.Sheds k (p.lookup now k) (p.fetch filter now k).plain.shelf.recent
      (victims (p.fetch filter now k).events) := by
  obtain ⟨shelf, _, _⟩ := p.withdrawKeeps now k
  have quiet := p.withdrawVictims now k
  have found := withdrawAnswer single now k
  unfold fetch lookup
  cases p.shelf.find? k with
  | some v => exact .none (p.shelf.touchOrder k)
  | none =>
    dsimp only
    rw [Option.none_or, ← found]
    cases answer : (p.withdraw now k).answer with
    | none =>
      dsimp only
      rw [quiet]
      exact .none (by rw [← shelf]; rfl)
    | some v =>
      let promoted := ((p.withdraw now k).plain.count .hit 1).count .promotion 1
      have sheds := enterSheds (p := promoted) (fitsShelf shelf fits) k v
      dsimp only
      rw [victimsAppend, quiet, List.nil_append, settleVictims, ← shelf]
      exact sheds

theorem storeSheds (fits : p.Fits) (k : K) (v : V) :
    p.shelf.Sheds k (some v) (p.store filter now k v).plain.shelf.recent
      (victims (p.store filter now k v).events) := by
  obtain ⟨shelf, _, _⟩ := p.withdrawKeeps now k
  have quiet := p.withdrawVictims now k
  unfold store
  cases p.shelf.find? k with
  | some old =>
    have order := (p.shelf.replace k v).touchOrder k
    exact .none (order.trans (Shelf.withoutRevalued k v p.shelf.recent))
  | none =>
    have sheds := enterSheds (p := (p.withdraw now k).plain) (fitsShelf shelf fits) k v
    dsimp only
    rw [victimsAppend, quiet, List.nil_append, settleVictims, ← shelf]
    exact sheds

theorem releaseSheds (single : p.Single) (fits : p.Fits) (k : K) :
    p.shelf.Sheds k (p.lookup now k) (p.release filter now k).plain.shelf.recent
      (victims (p.release filter now k).events) := by
  let freed : Plain K V := { p with shelf := p.shelf.unpin k, pins := without id p.pins k }
  unfold release
  cases held : p.shelf.find? k with
  | none =>
    rw [p.shelf.unpinAbsent held]
    exact .none rfl
  | some v =>
    dsimp only
    rw [settleVictims filter now freed]
    cases found : find Prod.fst p.shelf.pinned k with
    | none =>
      have same : freed.shelf.recent = p.shelf.recent :=
        congrArg (fun found : Option (K × V) => found.toList ++ p.shelf.recent) found
      have still : freed.Fits := fun most capped => same ▸ fits most capped
      obtain ⟨fitted, surplus⟩ := Shelf.fitsSurplus still
      rw [surplus]
      refine .none ?_
      show without Prod.fst freed.shelf.fitted.recent k = _
      rw [fitted, same]
    | some e =>
      have crowds : freed.shelf.recent = e :: p.shelf.recent :=
        congrArg (fun found : Option (K × V) => found.toList ++ p.shelf.recent) found
      -- The entry was pinned, so it is the one that a lookup finds.
      obtain ⟨mem, at_k⟩ := Keyed.findMem found
      have current : p.lookup now k = some e.2 :=
        hasLookup single ⟨e, liveMem.mpr (.inl (Shelf.entriesMem.mpr (.inr mem))), at_k, rfl⟩
      have crowded := Shelf.crowded (t := freed.shelf) fits rfl crowds
      rw [current]
      exact crowded.sheds at_k

/-- The key is on the shelf, and if it is to lead and is not pinned, it stands first. -/
structure Places (p : Plain K V) (k : K) (leads : Prop) : Prop where
  kept : (p.shelf.find? k).isSome
  first : leads → p.isPinned k = false → ∃ e, p.shelf.recent.head? = some e ∧ (e.1 == k) = true

omit [EquivBEq K] in
theorem shelvedFirst {s : Shelf K V} {k : K} {e : K × V} (head : s.recent.head? = some e)
    (at_k : (e.1 == k) = true) : (s.find? k).isSome := by
  have held : e ∈ s.entries := Shelf.entriesMem.mpr (.inl (List.mem_of_mem_head? head))
  rw [Shelf.findEntries, Option.isSome_map]
  exact List.find?_isSome.mpr ⟨e, held, at_k⟩

theorem enterPlaces (fits : p.Fits) (opened : p.shelf.capacity ≠ some 0) (k : K) (v : V) :
    ((p.enter k v).settle filter now).plain.Places k True := by
  rcases p.enterShelf k v with ⟨pinned, entered⟩ | ⟨free, entered⟩
  · have held : ((p.enter k v).shelf.fitted.find? k).isSome := by
      have aside : (k, v) ∈ (p.enter k v).shelf.fitted.entries := by
        rw [Shelf.entriesMem, (Shelf.fittedMem _).1, entered]
        exact .inr (List.mem_cons_self ..)
      rw [Shelf.findEntries, Option.isSome_map]
      exact List.find?_isSome.mpr ⟨(k, v), aside, BEq.refl k⟩
    exact ⟨held, fun _ free => absurd (pinned.symm.trans free) (by decide)⟩
  · have crowded := Shelf.crowded (t := (p.enter k v).shelf) fits (by rw [entered]) (by rw [entered])
    have head := crowded.first opened
    exact ⟨shelvedFirst head (BEq.refl k), fun _ _ => ⟨_, head, BEq.refl k⟩⟩

variable [Identity K]

theorem Sound.aside (sound : p.Sound) {k : K} (held : (p.shelf.find? k).isSome) :
    (p.isPinned k = true → ∃ e, find Prod.fst p.shelf.pinned k = some e ∧ (e.1 == k) = true) ∧
    (p.isPinned k = false → ∃ e, find Prod.fst p.shelf.recent k = some e ∧ (e.1 == k) = true) := by
  rw [Shelf.find?, Option.isSome_map] at held
  constructor
  · intro pinned
    have none : find Prod.fst p.shelf.recent k = none :=
      Keyed.findNone.mpr (fun e mem => otherKey pinned (sound.free e mem))
    rw [none, Option.none_or] at held
    obtain ⟨e, found⟩ := Option.isSome_iff_exists.mp held
    exact ⟨e, found, (Keyed.findMem found).2⟩
  · intro free
    have none : find Prod.fst p.shelf.pinned k = none :=
      Keyed.findNone.mpr (fun e mem => Keyed.unequalSymm (otherKey (sound.fixed e mem) free))
    rw [none, Option.or_none] at held
    obtain ⟨e, found⟩ := Option.isSome_iff_exists.mp held
    exact ⟨e, found, (Keyed.findMem found).2⟩

theorem touchPlaces (sound : p.Sound) {k : K} (held : (p.shelf.find? k).isSome) :
    Places { p with shelf := p.shelf.touch k } k (p.shelf.byUse = true) := by
  constructor
  · have perm := Shelf.touchEntries sound.single.recent k
    rw [Shelf.findEntries, Keyed.findPerm ((Keyed.apartPerm perm).mpr sound.single.apart.1) perm,
      ← Shelf.findEntries]
    exact held
  · intro byUse free
    obtain ⟨e, found, at_k⟩ := (sound.aside held).2 free
    refine ⟨e, ?_, at_k⟩
    show (p.shelf.touch k).recent.head? = some e
    unfold Shelf.touch
    rw [if_pos byUse, found]
    rfl

theorem fetchPlaces (sound : p.Sound) (fits : p.Fits) (opened : p.shelf.capacity ≠ some 0) {k : K}
    (found : (p.lookup now k).isSome) :
    (p.fetch filter now k).plain.Places k ((p.shelf.find? k).isSome = false ∨ p.shelf.byUse = true) := by
  obtain ⟨shelf, _, _⟩ := p.withdrawKeeps now k
  rw [← fetchAnswer sound.single filter now k] at found
  unfold fetch at found ⊢
  cases held : p.shelf.find? k with
  | some v =>
    have touched := touchPlaces sound (show (p.shelf.find? k).isSome by rw [held]; rfl)
    exact ⟨touched.kept, fun leads => touched.first (leads.resolve_left nofun)⟩
  | none =>
    rw [held] at found
    dsimp only at found ⊢
    cases answer : (p.withdraw now k).answer with
    | none =>
      rw [answer] at found
      exact Bool.noConfusion found
    | some v =>
      let promoted := ((p.withdraw now k).plain.count .hit 1).count .promotion 1
      have placed := enterPlaces (p := promoted) filter now (fitsShelf shelf fits) (shelf ▸ opened) k v
      exact ⟨placed.kept, fun _ => placed.first trivial⟩

theorem storePlaces (sound : p.Sound) (fits : p.Fits) (opened : p.shelf.capacity ≠ some 0) (k : K) (v : V) :
    (p.store filter now k v).plain.Places k ((p.shelf.find? k).isSome = false ∨ p.shelf.byUse = true) := by
  obtain ⟨shelf, _, _⟩ := p.withdrawKeeps now k
  unfold store
  cases held : p.shelf.find? k with
  | some old =>
    have replaced : ((p.shelf.replace k v).find? k).isSome := by
      rw [Shelf.foundStock, Shelf.stockReplace, ← Shelf.foundStock, held]
      rfl
    have touched := touchPlaces (sound.replace k v) replaced
    exact ⟨touched.kept, fun leads => touched.first (leads.resolve_left nofun)⟩
  | none =>
    have placed := enterPlaces (p := (p.withdraw now k).plain) filter now (fitsShelf shelf fits) (shelf ▸ opened) k v
    exact ⟨placed.kept, fun _ => placed.first trivial⟩

theorem releasePlaces (sound : p.Sound) (fits : p.Fits) (opened : p.shelf.capacity ≠ some 0) {k : K}
    (found : (p.lookup now k).isSome) (pinned : p.isPinned k = true) :
    (p.release filter now k).plain.Places k True := by
  rw [sound.lookupPinned pinned] at found
  obtain ⟨e, aside, at_k⟩ := (sound.aside found).1 pinned
  obtain ⟨v, held⟩ := Option.isSome_iff_exists.mp found
  have crowds : (p.shelf.unpin k).recent = e :: p.shelf.recent :=
    congrArg (fun found : Option (K × V) => found.toList ++ p.shelf.recent) aside
  have head := (Shelf.crowded (t := p.shelf.unpin k) fits rfl crowds).first opened
  unfold release
  rw [held]
  exact ⟨shelvedFirst head at_k, fun _ _ => ⟨e, head, at_k⟩⟩

omit [BEq K] [EquivBEq K] [Identity K] in
theorem latestFits {l : Line K V} (opened : l.bound ≠ some 0) (kept : List (Admission K V))
    (a : Admission K V) : Line.excess { l with waiting := kept ++ [a] } ≤ kept.length := by
  unfold Line.excess
  cases bound : l.bound with
  | none => exact Nat.zero_le _
  | some most =>
    have positive : most ≠ 0 := fun zero => opened (bound.trans (congrArg some zero))
    simp only [List.length_append, List.length_singleton]
    omega

omit [BEq K] [EquivBEq K] [Identity K] in
theorem offerTakes {filter : Filter K V} {l : Line K V} {k : K} {v : V} (accepted : filter k v = true)
    (opened : l.bound ≠ some 0) (now : Nat) : ⟨k, v, now⟩ ∈ (l.offer filter now k v).2.waiting := by
  have few := latestFits opened (l.waiting.dropWhile (fun a => a.expired l.lifetime now)) ⟨k, v, now⟩
  unfold Line.offer Line.enqueue Line.fit
  rw [if_pos ⟨accepted, opened⟩]
  dsimp only
  rw [List.drop_append_of_le_length few]
  simp

theorem storeShut (sound : p.Sound) (fits : p.Fits) (timely : p.line.Timely now)
    (closed : p.shelf.capacity = some 0) {k : K} (valid : Identity.valid k = true)
    (free : p.isPinned k = false) (v : V) : (p.store filter now k v).plain.lookup now k =
      if p.line.bound ≠ some 0 ∧ filter k v = true then some v else none := by
  obtain ⟨shelf, pins, line⟩ := p.withdrawKeeps now k
  have single := (storeLawful sound filter now valid v).sound.single
  have empty : p.shelf.recent = [] := List.length_eq_zero_iff.mp (Nat.le_zero.mp (fits 0 closed))
  have absent : p.shelf.find? k = none := by
    cases held : p.shelf.find? k with
    | none => rfl
    | some w =>
      obtain ⟨e, found, _⟩ := (sound.aside (show (p.shelf.find? k).isSome by rw [held]; rfl)).2 free
      rw [empty] at found
      cases found
  let entered := (p.withdraw now k).plain.enter k v
  have crowd : entered.shelf = { p.shelf with recent := [(k, v)] } := by
    have unpinned : (p.withdraw now k).plain.isPinned k = false := by
      unfold isPinned
      rw [pins]
      exact free
    rcases (p.withdraw now k).plain.enterShelf k v with ⟨pinned, _⟩ | ⟨_, crowd⟩
    · exact absurd (pinned.symm.trans unpinned) (by decide)
    · rw [shelf, empty] at crowd
      exact crowd
  have stored : (p.store filter now k v).plain = ((entered.count .insert 1).settle filter now).plain := by
    unfold store
    rw [absent]
  have bare : ((entered.count .insert 1).settle filter now).plain.shelf.find? k = none := by
    show entered.shelf.fitted.find? k = none
    rw [crowd]
    unfold Shelf.fitted
    rw [Shelf.findAbsent] at absent
    simp only [closed]
    exact Shelf.findAbsent.mpr ⟨rfl, absent.2⟩
  have waiting : ((entered.count .insert 1).settle filter now).plain.line =
      ((p.line.remove k).offer filter now k v).2 := by
    show (Line.receive filter now entered.shelf.surplus (p.withdraw now k).plain.line).2 = _
    rw [crowd, line]
    unfold Shelf.surplus
    simp only [closed]
    rfl
  rw [stored] at single ⊢
  by_cases accepted : p.line.bound ≠ some 0 ∧ filter k v = true
  · have fresh := (timely.fewer (m := p.line.remove k) List.filter_sublist rfl).fresh k v
    have kept := (p.line.remove k).offerKeeps filter now k v
    have waits := offerTakes (l := p.line.remove k) accepted.2 accepted.1 now
    rw [if_pos accepted]
    refine hasLookup single ⟨(k, v), liveMem.mpr (.inr ⟨⟨k, v, now⟩, ?_, ?_, rfl⟩), BEq.refl k, rfl⟩
    · rw [waiting]
      exact waits
    · rw [waiting, kept.2]
      exact fresh
  · have refused : (p.line.remove k).offer filter now k v = ([k], p.line.remove k) := by
      unfold Line.offer
      exact if_neg (fun both => accepted ⟨both.2, both.1⟩)
    have gone : find Admission.key ((p.line.remove k).live now) k = none :=
      Keyed.findNone.mpr (fun a mem => (Keyed.withoutMem.mp (List.mem_filter.mp mem).1).2)
    rw [if_neg accepted, lookup, bare, waiting, refused, Option.none_or, Line.lookup, gone]
    rfl

end Plain

namespace Session
variable [BEq K] [Identity K]

def events (filter : Filter K V) (s : Session K V) (call : Call K V) : List (Event K V) :=
  (s.step filter (.call call)).1.2

/-- A call for one key evicts one entry at most, the last one or, if nothing is kept, that of the key with
the value now current; the other unpinned entries are as they were. -/
structure Evicts (filter : Filter K V) (s : Session K V) (call : Call K V) (k : K) (current : Option V) :
    Prop where
  once : (victims (s.events filter call)).length ≤ 1
  last : s.cache.cacheSize ≠ some 0 → ∀ e ∈ victims (s.events filter call),
    s.cache.primary.unpinnedEntries.getLast? = some e
  itself : s.cache.cacheSize = some 0 → ∀ e ∈ victims (s.events filter call),
    (e.1 == k) = true ∧ current = some e.2
  order : without Prod.fst s.cache.primary.unpinnedEntries k =
    without Prod.fst (s.after filter call).cache.primary.unpinnedEntries k ++
      without Prod.fst (victims (s.events filter call)) k

/-- The key is in the primary tier, and if it is to lead and is not pinned, it is the most recent. -/
structure Places (s : Session K V) (k : K) (leads : Prop) : Prop where
  kept : s.cache.primary.contains k = true
  first : leads → s.cache.pins.contains k = false →
    ∃ e, s.cache.primary.unpinnedEntries.head? = some e ∧ (e.1 == k) = true

/-- What each operation on one key does to the primary tier. -/
structure Displaces (filter : Filter K V) (s : Session K V) (k : K) : Prop where
  get : s.Evicts filter (.get k) k (s.cache.glance s.now k)
  put : ∀ v, s.Evicts filter (.put k v) k (some v)
  unpin : s.Evicts filter (.unpin k) k (s.cache.glance s.now k)
  quiet : ∀ call ∈ [.pin k, .remove k, .peek k, .containsKey k], victims (s.events filter call) = [] ∧
    without Prod.fst (s.after filter call).cache.primary.unpinnedEntries k =
      without Prod.fst s.cache.primary.unpinnedEntries k
  placedGet : s.cache.cacheSize ≠ some 0 → ∀ v, s.answer filter (.get k) = .value (some v) →
    (s.after filter (.get k)).Places k (s.cache.primary.contains k = false ∨ s.cache.isLru = true)
  placedPut : s.cache.cacheSize ≠ some 0 → ∀ v,
    (s.after filter (.put k v)).Places k (s.cache.primary.contains k = false ∨ s.cache.isLru = true)
  placedUnpin : s.cache.cacheSize ≠ some 0 → s.answer filter (.containsKey k) = .flag true →
    s.answer filter (.unpin k) = .flag true → (s.after filter (.unpin k)).Places k True
  shut : s.cache.cacheSize = some 0 → s.answer filter (.isPinned k) = .flag false → ∀ v,
    (s.after filter (.put k v)).answer filter (.peek k) =
      .value (if s.cache.softSize ≠ some 0 ∧ filter k v = true then some v else none)

variable [EquivBEq K] {s : Session K V} {p : Plain K V}

theorem Tracks.events (tracks : s.Tracks p) (filter : Filter K V) {call : Call K V}
    (other : call.purges = false) : s.events filter call = (p.step filter s.now call).events :=
  (tracks.shows.step tracks.sound filter s.now call).events.exactly other

theorem Tracks.evicts (tracks : s.Tracks p) {filter : Filter K V} {call : Call K V} {k : K} {current : Option V}
    (other : call.purges = false) {turn : Turn K V (Reply K V)} (stepped : p.step filter s.now call = turn)
    (sheds : p.shelf.Sheds k current turn.plain.shelf.recent (victims turn.events)) :
    s.Evicts filter call k current := by
  have heard := tracks.events filter other
  have later := tracks.after filter call
  rw [stepped] at heard later
  have capacity : s.cache.cacheSize = p.shelf.capacity := (Recency.capacityShown tracks.shows.primary).symm
  have before := Recency.unpinnedShown tracks.shows.primary
  have after := Recency.unpinnedShown later.shows.primary
  constructor
  · rw [heard]
    exact sheds.once
  · rw [heard, before, capacity]
    exact sheds.last
  · rw [heard, capacity]
    exact sheds.itself
  · rw [before, after, heard]
    exact sheds.order

theorem Tracks.places (tracks : s.Tracks p) {k : K} {leads : Prop} (places : p.Places k leads) :
    s.Places k leads := by
  constructor
  · rw [Recency.containsShown tracks.shows.primary]
    exact places.kept
  · rw [tracks.shows.pinned, Recency.unpinnedShown tracks.shows.primary]
    exact places.first

theorem Tracks.displaces (tracks : s.Tracks p) (timely : p.line.Timely s.now) (filter : Filter K V) {k : K}
    (valid : Identity.valid k = true) : s.Displaces filter k := by
  have ⟨shows, sound, fits⟩ := tracks
  have tells := tracks.tells filter valid
  have given (op : KeyedOp) (turn : Turn K V (Reply K V)) : p.given op [k] turn = turn :=
    p.givenValid valid op turn
  have later (call : Call K V) {turn : Turn K V (Reply K V)} (stepped : p.step filter s.now call = turn) :
      (s.after filter call).Tracks turn.plain := stepped ▸ tracks.after filter call
  have quits {call : Call K V} (other : call.purges = false) {turn : Turn K V (Reply K V)}
      (stepped : p.step filter s.now call = turn) (quits : victims turn.events = [] ∧
        without Prod.fst turn.plain.shelf.recent k = without Prod.fst p.shelf.recent k) :
      victims (s.events filter call) = [] ∧
        without Prod.fst (s.after filter call).cache.primary.unpinnedEntries k =
          without Prod.fst s.cache.primary.unpinnedEntries k := by
    rw [tracks.events filter other, Recency.unpinnedShown (later call stepped).shows.primary,
      Recency.unpinnedShown shows.primary, stepped]
    exact quits
  have glance := (shows.holds s.now k).2
  have capacity : s.cache.cacheSize = p.shelf.capacity := (Recency.capacityShown shows.primary).symm
  have placing : (s.cache.primary.contains k = false ∨ s.cache.isLru = true) =
      ((p.shelf.find? k).isSome = false ∨ p.shelf.byUse = true) := by
    rw [Recency.containsShown shows.primary, Cache.isLru, ← Recency.byUseShown shows.primary]
  constructor
  · rw [glance]
    exact tracks.evicts rfl (given ..) (p.fetchSheds filter s.now sound.single fits k)
  · intro v
    exact tracks.evicts rfl (given ..) (p.storeSheds filter s.now fits k v)
  · rw [glance]
    exact tracks.evicts rfl (given ..) (p.releaseSheds filter s.now sound.single fits k)
  · intro call mem
    simp only [List.mem_cons, List.not_mem_nil, or_false] at mem
    rcases mem with rfl | rfl | rfl | rfl
    · exact quits rfl (given ..) (p.holdQuits s.now k)
    · exact quits rfl (given ..) (p.discardQuits s.now k)
    · exact quits rfl (given ..) ⟨rfl, rfl⟩
    · exact quits rfl (given ..) ⟨rfl, rfl⟩
  · intro opened v answer
    have found : p.lookup s.now k = some v := Reply.value.inj (tells.get.symm.trans answer)
    rw [capacity] at opened
    rw [placing]
    have placed := p.fetchPlaces filter s.now sound fits opened (by rw [found]; rfl)
    exact (later (.get k) (given ..)).places placed
  · intro opened v
    rw [capacity] at opened
    rw [placing]
    exact (later (.put k v) (given ..)).places (p.storePlaces filter s.now sound fits opened k v)
  · intro opened contained unpinned
    have found : (p.lookup s.now k).isSome = true := Reply.flag.inj (tells.containsKey.symm.trans contained)
    have pinned : p.isPinned k = true :=
      (shows.pinned k).symm.trans (Reply.flag.inj (tells.unpin.symm.trans unpinned))
    rw [capacity] at opened
    exact (later (.unpin k) (given ..)).places (p.releasePlaces filter s.now sound fits opened found pinned)
  · intro closed unpinned v
    have free : p.isPinned k = false :=
      (shows.pinned k).symm.trans (Reply.flag.inj (tells.isPinned.symm.trans unpinned))
    have bound : s.cache.softSize = p.line.bound := (Overflow.boundShown shows.overflow).symm
    rw [capacity] at closed
    rw [bound]
    exact ((later (.put k v) (given ..)).lookupAnswers filter valid
      (p.storeShut filter s.now sound fits timely closed valid free v)).1

theorem runDisplaced (filter : Filter K V) {config : Config} (started : start config = .ok s)
    (moves : List (Move K V)) {k : K} (valid : Identity.valid k = true) :
    (s.run filter moves).Displaces filter k := by
  obtain ⟨p, tracks, timely⟩ := runReached filter started moves
  exact tracks.displaces timely filter valid

omit [BEq K] [Identity K] [EquivBEq K] in
/- The tier is full of 2 and 3, with 4 pinned and 1 waiting: whichever comes next drives out key 2. In a
tier that keeps nothing a put evicts its own entry. -/
theorem runDisplacedSmall :
    let config : Config := { lru := true, cacheSize := some 2 }
    let shut : Config := { cacheSize := some 0 }
    let filter : Filter Nat Nat := Filter.all
    let moves : List (Move Nat Nat) :=
      [.call (.put 4 40), .call (.pin 4), .call (.putAll [(1, 10), (2, 20), (3, 30)])]
    let s : Session Nat Nat := ⟨0, .empty true (some 2) none none⟩
    let r : Session Nat Nat := ⟨0, .empty false (some 0) none none⟩
    (start config = .ok s ∧ start shut = .ok r ∧ Identity.valid 1 = true ∧ Identity.valid 4 = true ∧
      victims ((s.run filter moves).events filter (.get 1)) = [(2, 20)] ∧
      victims ((s.run filter moves).events filter (.unpin 4)) = [(2, 20)] ∧
      victims ((r.run filter moves).events filter (.put 1 11)) = [(1, 11)]) ∧
    (s.run filter moves).Displaces filter 1 ∧ (s.run filter moves).Displaces filter 4 ∧
    (r.run filter moves).Displaces filter 1 := by
  intro config shut filter moves s r
  have started : start config = .ok s := rfl
  have also : start shut = .ok r := rfl
  exact ⟨⟨started, also, rfl, rfl, by decide, by decide, by decide⟩, runDisplaced filter started moves rfl,
    runDisplaced filter started moves rfl, runDisplaced filter also moves rfl⟩

end Session
end TieredCache
