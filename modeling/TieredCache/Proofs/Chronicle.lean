import TieredCache.Proofs.Live
import TieredCache.Proofs.Log

/-! How the plain lists account for a record. Between one note and the next nothing is lost or
doubled in silence, what a call handed out could be looked up before it, and what can be looked up
after it could be before, unless the call put it there. -/
namespace TieredCache
open Keyed (Apart find without copies)
variable {K V : Type} [BEq K]

/-- What a note and what is heard after it say about the lists before and after. -/
structure Segment (now : Nat) (p : Plain K V) (note : Note K V) (events : List (Event K V))
    (q : Plain K V) : Prop where
  silent : note.event? = none
  balance : note ≠ .emptied → ∀ k,
    q.stock k + heard k events + (if note.takes k then 1 else 0) =
      p.stock k + if note.creates k then 1 else 0
  returned : ∀ k v, note.returned = some (k, v) → p.lookup now k = some v
  kept : ∀ k v, q.has now k v →
    (∃ j previous, note = .put j v previous ∧ (j == k) = true) ∨ (note.writes k = false ∧ p.has now k v)

inductive Chronicle : Nat → Plain K V → List (Note K V) → Nat → Plain K V → Prop where
  | done (now : Nat) (p : Plain K V) : Chronicle now p [] now p
  | wait {now : Nat} {p : Plain K V} {log : List (Note K V)} {last : Nat} {q : Plain K V} (time : Nat)
      (later : Chronicle (now + time) p log last q) : Chronicle now p log last q
  | turn {now : Nat} {p r : Plain K V} {note : Note K V} {events : List (Event K V)}
      {log : List (Note K V)} {last : Nat} {q : Plain K V} (segment : Segment now p note events r)
      (later : Chronicle now r log last q) :
      Chronicle now p (note :: (events.map .heard ++ log)) last q

omit [BEq K] in
theorem turnSplit {note n : Note K V} {events : List (Event K V)} {log before after : List (Note K V)}
    (split : note :: (events.map .heard ++ log) = before ++ n :: after) :
    (before = [] ∧ n = note) ∨
    (∃ passed event rest, events = passed ++ event :: rest ∧ n = .heard event ∧
      before = note :: passed.map .heard) ∨
    ∃ more, before = note :: (events.map .heard ++ more) ∧ log = more ++ n :: after := by
  cases before with
  | nil => exact .inl ⟨rfl, (List.cons.inj split).1.symm⟩
  | cons first before =>
    obtain ⟨rfl, tail⟩ := List.cons.inj split
    rcases List.append_eq_append_iff.mp tail with ⟨more, rfl, rest⟩ | ⟨more, whole, rest⟩
    · exact .inr (.inr ⟨more, rfl, rest⟩)
    · cases more with
      | nil =>
        rw [List.append_nil] at whole
        exact .inr (.inr ⟨[], by rw [← whole, List.append_nil], rest.symm⟩)
      | cons second more =>
        obtain ⟨passed, rest_events, rfl, heard, others⟩ := List.map_eq_append_iff.mp whole
        obtain ⟨event, left, rfl, told, _⟩ := List.map_eq_cons_iff.mp others
        have same : n = second := (List.cons.inj rest).1
        exact .inr (.inl ⟨passed, event, left, rfl, same.trans told.symm, by rw [heard]⟩)

theorem Chronicle.append {now middle last : Nat} {p r q : Plain K V} {first second : List (Note K V)}
    (before : Chronicle now p first middle r) (after : Chronicle middle r second last q) :
    Chronicle now p (first ++ second) last q := by
  induction before with
  | done now p => exact after
  | wait time later ih => exact .wait time (ih after)
  | turn segment later ih =>
    rw [List.cons_append, List.append_assoc]
    exact .turn segment (ih after)

theorem Segment.single {now : Nat} {p q : Plain K V} {note : Note K V} {events : List (Event K V)}
    (segment : Segment now p note events q) : Chronicle now p (note :: events.map .heard) now q := by
  have once := Chronicle.turn segment (.done now q)
  rw [List.append_nil] at once
  exact once

theorem Segment.reordered {now : Nat} {p q : Plain K V} {note : Note K V}
    {first second : List (Event K V)} (perm : first.Perm second) (segment : Segment now p note second q) :
    Segment now p note first q := by
  refine ⟨segment.silent, fun filled k => ?_, segment.returned, segment.kept⟩
  have same : heard k first = heard k second := perm.countP_eq _
  rw [same]
  exact segment.balance filled k

theorem segmentOther {p q : Plain K V} {events : List (Event K V)} (now : Nat) (call : Call K V)
    (balance : ∀ k, q.stock k + heard k events = p.stock k)
    (kept : ∀ k v, q.has now k v → p.has now k v) : Segment now p (.other call) events q :=
  ⟨rfl, fun _ => balance, by simp [Note.returned], fun k v held => .inr ⟨rfl, kept k v held⟩⟩

theorem lookupTold {now : Nat} {p : Plain K V} {k j : K} {v : V} {answer : Option V}
    (found : answer = p.lookup now k) (told : answer.map (k, ·) = some (j, v)) :
    p.lookup now j = some v := by
  obtain ⟨w, some, pair⟩ := Option.map_eq_some_iff.mp told
  obtain ⟨rfl, rfl⟩ := Prod.mk.inj pair
  exact found.symm.trans some

theorem segmentRead {now : Nat} {p q : Plain K V} {events : List (Event K V)} {k : K} {answer : Option V}
    (balance : ∀ j, q.stock j + heard j events = p.stock j)
    (found : answer = p.lookup now k)
    (kept : ∀ j v, q.has now j v → p.has now j v) : Segment now p (.read k answer) events q := by
  refine ⟨rfl, fun _ => balance, fun j v told => ?_, fun j v held => .inr ⟨rfl, kept j v held⟩⟩
  rw [Note.returnedRead] at told
  exact lookupTold found told

section calls
variable [EquivBEq K] [Identity K] {p : Plain K V}

theorem segmentPut (sound : p.Sound) (filter : Filter K V) (now : Nat) {k : K}
    (valid : Identity.valid k = true) (v : V) :
    Segment now p (.put k v (p.store filter now k v).answer) (p.store filter now k v).events
      (p.store filter now k v).plain := by
  have answer := Plain.storeAnswer sound.single filter now k v
  refine ⟨rfl, fun _ => (Plain.storeLawful sound filter now valid v).balance, ?_, ?_⟩
  · intro j w told
    rw [Note.returnedPut] at told
    exact lookupTold answer told
  · intro j w held
    rcases Plain.storeHas sound.single filter k v held with ⟨at_j, rfl⟩ | kept
    · exact .inl ⟨k, _, rfl, at_j⟩
    · exact .inr kept

theorem segmentRemove (sound : p.Sound) (now : Nat) (k : K) :
    Segment now p (.remove k (p.discard now k).answer) (p.discard now k).events
      (p.discard now k).plain := by
  have answer := Plain.discardAnswer sound.single now k
  refine ⟨rfl, fun _ => (Plain.discardLawful sound now k).balance, fun j w told => ?_,
    fun j w held => .inr (Plain.discardHas k held)⟩
  rw [Note.returnedRemove] at told
  exact lookupTold answer told

omit [EquivBEq K] [Identity K] in
theorem segmentClear (now : Nat) (p : Plain K V) : Segment now p .emptied [] p.clear := by
  refine ⟨rfl, fun filled => absurd rfl filled, by simp [Note.returned], ?_⟩
  rintro k v ⟨e, mem, _⟩
  simp [Plain.live, Plain.clear, Shelf.entries, Line.live] at mem

theorem chronicleBatch {c : Cache K V} (shows : c.Shows p) (sound : p.Sound) (filter : Filter K V)
    (now : Nat) {entries : List (K × V)} (valid : ∀ e ∈ entries, Identity.valid e.1 = true) :
    Chronicle now p (c.batchNotes filter now entries) now (p.storeAll filter now entries).plain := by
  induction entries generalizing c p with
  | nil => exact .done now p
  | cons e rest ih =>
    have at_e := valid e (by simp)
    obtain ⟨answer, events, shown⟩ := shows.store sound filter now at_e e.2
    have first := (segmentPut sound filter now at_e e.2).single
    rw [← answer, ← events] at first
    have lawful := Plain.storeLawful sound filter now at_e e.2
    exact first.append (ih shown lawful.sound (fun d mem => valid d (by simp [mem])))

omit [EquivBEq K] [Identity K] in
theorem chronicleIdle {q : Plain K V} (now : Nat) (call : Call K V) (shelf : q.shelf = p.shelf)
    (line : q.line = p.line) : Chronicle now p [.other call] now q := by
  have balance : ∀ k, q.stock k + heard k ([] : List (Event K V)) = p.stock k := by
    intro k
    show q.shelf.stock k + q.line.stock k = _
    rw [shelf, line]
    rfl
  refine (segmentOther now call balance (fun k v held => ?_)).single
  exact held.mono (fun _ => Plain.liveSub (fun e mem => shelf ▸ mem) (fun a mem => line ▸ mem)
    (congrArg Line.lifetime line))

theorem chronicleGet {c : Cache K V} (shows : c.Shows p) (sound : p.Sound) (filter : Filter K V)
    (now : Nat) (k : K) :
    Chronicle now p (c.notes filter now (.get k)) now (p.step filter now (.get k)).plain := by
  simp only [Cache.notes, Cache.step, Cache.get, Cache.check, Plain.step, Plain.given, List.all_cons,
    List.all_nil, Bool.and_true]
  cases valid : Identity.valid k with
  | false => exact chronicleIdle now (.get k) rfl rfl
  | true =>
    obtain ⟨answer, events, _⟩ := shows.fetch sound filter now valid
    have segment := segmentRead (Plain.fetchLawful sound filter now valid).balance
      (Plain.fetchAnswer sound.single filter now k) (fun j v => Plain.fetchHas sound.single filter k)
    rw [← answer, ← events] at segment
    exact segment.single

theorem chroniclePut {c : Cache K V} (shows : c.Shows p) (sound : p.Sound) (filter : Filter K V)
    (now : Nat) (k : K) (v : V) :
    Chronicle now p (c.notes filter now (.put k v)) now (p.step filter now (.put k v)).plain := by
  simp only [Cache.notes, Cache.step, Cache.put, Cache.check, Plain.step, Plain.given, List.all_cons,
    List.all_nil, Bool.and_true]
  cases valid : Identity.valid k with
  | false => exact chronicleIdle now (.put k v) rfl rfl
  | true =>
    obtain ⟨answer, events, _⟩ := shows.store sound filter now valid v
    have segment := segmentPut sound filter now valid v
    rw [← answer, ← events] at segment
    exact segment.single

theorem chronicleRemove {c : Cache K V} (shows : c.Shows p) (sound : p.Sound) (filter : Filter K V)
    (now : Nat) (k : K) :
    Chronicle now p (c.notes filter now (.remove k)) now (p.step filter now (.remove k)).plain := by
  simp only [Cache.notes, Cache.step, Cache.remove, Cache.check, Plain.step, Plain.given, List.all_cons,
    List.all_nil, Bool.and_true]
  cases Identity.valid k with
  | false => exact chronicleIdle now (.remove k) rfl rfl
  | true =>
    obtain ⟨answer, events, _⟩ := shows.discard now k
    have segment := segmentRemove sound now k
    rw [← answer, ← events] at segment
    exact segment.single

theorem chroniclePin {c : Cache K V} (shows : c.Shows p) (sound : p.Sound) (filter : Filter K V)
    (now : Nat) (k : K) :
    Chronicle now p (c.notes filter now (.pin k)) now (p.step filter now (.pin k)).plain := by
  simp only [Cache.notes, Cache.step, Cache.pin, Cache.check, Plain.step, Plain.given, List.all_cons,
    List.all_nil, Bool.and_true]
  cases valid : Identity.valid k with
  | false => exact chronicleIdle now (.pin k) rfl rfl
  | true =>
    have events := (shows.hold now k).events
    have segment := segmentOther now (.pin k) (Plain.holdLawful sound now valid).balance
      (fun j v => Plain.holdHas sound.single k)
    rw [← events] at segment
    exact segment.single

theorem chronicleUnpin {c : Cache K V} (shows : c.Shows p) (sound : p.Sound) (filter : Filter K V)
    (now : Nat) (k : K) :
    Chronicle now p (c.notes filter now (.unpin k)) now (p.step filter now (.unpin k)).plain := by
  simp only [Cache.notes, Cache.step, Cache.unpin, Cache.check, Plain.step, Plain.given, List.all_cons,
    List.all_nil, Bool.and_true]
  cases Identity.valid k with
  | false => exact chronicleIdle now (.unpin k) rfl rfl
  | true =>
    have events := (shows.release sound filter now k).events
    have segment := segmentOther now (.unpin k) (Plain.releaseLawful sound filter now k).balance
      (fun j v => Plain.releaseHas sound.single filter k)
    rw [← events] at segment
    exact segment.single

theorem chroniclePeek {c : Cache K V} (shows : c.Shows p) (filter : Filter K V) (now : Nat) (k : K) :
    Chronicle now p (c.notes filter now (.peek k)) now (p.step filter now (.peek k)).plain := by
  simp only [Cache.notes, Cache.step, Cache.peek, Cache.check, Plain.step, Plain.given, List.all_cons,
    List.all_nil, Bool.and_true]
  cases Identity.valid k with
  | false => exact chronicleIdle now (.peek k) rfl rfl
  | true =>
    have found := (shows.holds now k).2
    have segment : Segment now p (.read k (c.glance now k)) [] p :=
      segmentRead (fun _ => rfl) found (fun _ _ held => held)
    exact segment.single

theorem chronicleCall {c : Cache K V} (shows : c.Shows p) (sound : p.Sound) (filter : Filter K V)
    (now : Nat) (call : Call K V) :
    Chronicle now p (c.notes filter now call) now (p.step filter now call).plain := by
  cases call with
  | get k => exact chronicleGet shows sound filter now k
  | put k v => exact chroniclePut shows sound filter now k v
  | putAll entries =>
    simp only [Cache.notes, Cache.step, Cache.putAll, Cache.checkAllEq, Plain.step, Plain.given]
    cases valid : (entries.map Prod.fst).all Identity.valid with
    | false => exact chronicleIdle now (.putAll entries) rfl rfl
    | true => exact chronicleBatch shows sound filter now (by simpa using valid)
  | remove k => exact chronicleRemove shows sound filter now k
  | pin k => exact chroniclePin shows sound filter now k
  | unpin k => exact chronicleUnpin shows sound filter now k
  | peek k => exact chroniclePeek shows filter now k
  | isPinned k =>
    simp only [Cache.notes, Cache.step, Cache.isPinned, Cache.check, Plain.step, Plain.given, List.all_cons,
      List.all_nil, Bool.and_true]
    cases Identity.valid k with
    | false => exact chronicleIdle now (.isPinned k) rfl rfl
    | true => exact chronicleIdle now (.isPinned k) rfl rfl
  | containsKey k =>
    simp only [Cache.notes, Cache.step, Cache.containsKey, Cache.check, Plain.step, Plain.given, List.all_cons,
      List.all_nil, Bool.and_true]
    cases Identity.valid k with
    | false => exact chronicleIdle now (.containsKey k) rfl rfl
    | true => exact chronicleIdle now (.containsKey k) rfl rfl
  | clear => exact (segmentClear now p).single
  | setCacheSize n =>
    have events := (shows.setCacheSize sound.single filter now n).events
    have segment := segmentOther now (.setCacheSize n) (Plain.setCacheSizeLawful sound filter now n).balance
      (fun j v => Plain.setCacheSizeHas filter n)
    rw [← events] at segment
    exact segment.single
  | setSoftSize n =>
    have events := (shows.setSoftSize n).events
    have segment := segmentOther now (.setSoftSize n) (Plain.setSoftSizeLawful sound n).balance
      (fun j v => Plain.setSoftSizeHas n)
    rw [← events] at segment
    exact segment.single
  | purge =>
    have events := (shows.purge now).2.1
    have segment := segmentOther now .purge (Plain.purgeLawful sound now).balance (fun j v => Plain.purgeHas)
    exact (segment.reordered events).single
  | size => exact chronicleIdle now .size rfl rfl
  | isEmpty => exact chronicleIdle now .isEmpty rfl rfl
  | keys => exact chronicleIdle now .keys rfl rfl
  | pinnedKeys => exact chronicleIdle now .pinnedKeys rfl rfl
  | cacheSize => exact chronicleIdle now .cacheSize rfl rfl
  | softSize => exact chronicleIdle now .softSize rfl rfl
  | isLru => exact chronicleIdle now .isLru rfl rfl
  | concurrencyHint => exact chronicleIdle now .concurrencyHint rfl rfl
  | counters => exact chronicleIdle now .counters rfl rfl
  | resetCounters => exact chronicleIdle now .resetCounters rfl rfl

theorem Session.Tracks.chronicle {s : Session K V} (tracks : s.Tracks p) (filter : Filter K V)
    (moves : List (Move K V)) :
    Chronicle s.now p (s.log filter moves) (s.run filter moves).now (p.run filter s.now moves).2 := by
  induction moves generalizing s p with
  | nil => exact .done s.now p
  | cons move rest ih =>
    cases move with
    | wait time =>
      have waited : Session.Tracks { s with now := s.now + time } p :=
        ⟨tracks.shows, tracks.sound, tracks.fits⟩
      exact .wait time (ih waited)
    | call call =>
      have noted := chronicleCall tracks.shows tracks.sound filter s.now call
      exact noted.append (ih (tracks.call filter s.now call))

end calls
end TieredCache
