import TieredCache.KeyText
import TieredCache.Proofs.Observers
import TieredCache.Proofs.Respelled

/-! A cache asked the same under other spellings. When equal keys are all valid or all not, and the
filter cannot tell them apart either, two runs whose calls name equal keys answer the same and let the
same be heard, but for the spelling of the keys. The states in between are respellings of each other,
whichever spelling each list happens to keep. -/
namespace TieredCache
open Keyed (find without)
variable {K V A : Type} [BEq K]

inductive Event.Respells : Event K V → Event K V → Prop where
  | evicted {j k : K} (same : SameKey j k) (v : V) : Respells (.evicted j v) (.evicted k v)
  | reclaimed {j k : K} (same : SameKey j k) : Respells (.reclaimed j) (.reclaimed k)

def Call.unkeyed : Call K V → Bool
  | .get _ | .put _ _ | .putAll _ | .remove _ | .pin _ | .unpin _ | .isPinned _ | .containsKey _
  | .peek _ => false
  | _ => true

/-- The same call with the same values, for equal keys. -/
inductive Call.Respells : Call K V → Call K V → Prop where
  | get {j k : K} (same : SameKey j k) : Respells (.get j) (.get k)
  | put {j k : K} (same : SameKey j k) (v : V) : Respells (.put j v) (.put k v)
  | putAll {xs ys : List (K × V)} (same : List.Forall₂ SameEntry xs ys) : Respells (.putAll xs) (.putAll ys)
  | remove {j k : K} (same : SameKey j k) : Respells (.remove j) (.remove k)
  | pin {j k : K} (same : SameKey j k) : Respells (.pin j) (.pin k)
  | unpin {j k : K} (same : SameKey j k) : Respells (.unpin j) (.unpin k)
  | isPinned {j k : K} (same : SameKey j k) : Respells (.isPinned j) (.isPinned k)
  | containsKey {j k : K} (same : SameKey j k) : Respells (.containsKey j) (.containsKey k)
  | peek {j k : K} (same : SameKey j k) : Respells (.peek j) (.peek k)
  | unkeyed {call : Call K V} (bare : call.unkeyed = true) : Respells call call

inductive Move.Respells : Move K V → Move K V → Prop where
  | wait (time : Nat) : Respells (.wait time) (.wait time)
  | call {first second : Call K V} (same : first.Respells second) : Respells (.call first) (.call second)

def Reply.named : Reply K V → Bool
  | .keys _ | .pinned _ => true
  | _ => false

/-- The same reply. Only a list of keys can be spelled otherwise, and pinned keys come in any order. -/
inductive Reply.Respells : Reply K V → Reply K V → Prop where
  | keys {l m : Listing K} (recent : List.Forall₂ SameKey l.recent m.recent)
      (pinned : Reordered SameKey l.pinned m.pinned) (overflow : List.Forall₂ SameKey l.overflow m.overflow) :
      Respells (.keys l) (.keys m)
  | pinned {js ks : List K} (same : Reordered SameKey js ks) : Respells (.pinned js) (.pinned ks)
  | same {r : Reply K V} (plain : r.named = false) : Respells r r

omit [BEq K] in
theorem Reply.Agrees.listed {a : Reply K V} {m : Listing K} (agrees : a.Agrees (.keys m)) :
    ∃ l, a = .keys l ∧ l.recent = m.recent ∧ l.pinned.Perm m.pinned ∧ l.overflow = m.overflow := by
  cases a with
  | keys l => exact ⟨l, rfl, agrees⟩
  | _ =>
    have other : _ = Reply.keys m := agrees
    cases other

theorem Reply.Respells.agreed {a b c d : Reply K V} (first : a.Agrees b) (same : b.Respells c)
    (second : d.Agrees c) : a.Respells d := by
  cases same with
  | keys recent pinned overflow =>
    obtain ⟨l, rfl, one, moved, other⟩ := first.listed
    obtain ⟨m, rfl, one', moved', other'⟩ := second.listed
    exact .keys (one ▸ one' ▸ recent) (pinned.perm moved moved') (other ▸ other' ▸ overflow)
  | pinned same =>
    obtain rfl := first.told rfl
    obtain rfl := second.told rfl
    exact .pinned same
  | same plain =>
    have lone : b.isListing = false := by
      cases b with
      | keys l => exact Bool.noConfusion plain
      | _ => rfl
    obtain rfl := first.told lone
    obtain rfl := second.told lone
    exact .same plain

/-- What is heard during the call is the same, in the same order but for a purge. -/
def Call.Repeats (call : Call K V) (first second : List (Event K V)) : Prop :=
  match call with
  | .purge => Reordered Event.Respells first second
  | _ => List.Forall₂ Event.Respells first second

theorem Call.Respells.repeats {call other : Call K V} {xs ys us vs : List (Event K V)}
    (same : call.Respells other) (first : call.Hears xs us) (along : List.Forall₂ Event.Respells us vs)
    (second : other.Hears ys vs) : call.Repeats xs ys := by
  have exactly (left : xs = us) (right : ys = vs) : List.Forall₂ Event.Respells xs ys := left ▸ right ▸ along
  cases same with
  | unkeyed bare =>
    cases call with
    | purge => exact (Reordered.same along).perm first second
    | _ => exact exactly first second
  | _ => exact exactly first second

structure Plain.Respelled (p q : Plain K V) : Prop where
  shelf : p.shelf.Respelled q.shelf
  line : p.line.Respelled q.line
  pins : List.Forall₂ SameKey p.pins q.pins
  counters : p.counters = q.counters
  hint : p.concurrencyHint = q.concurrencyHint

structure Turn.Respelled (answers : A → A → Prop) (t u : Turn K V A) : Prop where
  answer : answers t.answer u.answer
  events : List.Forall₂ Event.Respells t.events u.events
  plain : t.plain.Respelled u.plain

theorem Turn.Respelled.say {t u : Turn K V A} (respelled : t.Respelled Eq u) (say : A → Reply K V)
    (plain : ∀ a, (say a).named = false) :
    Turn.Respelled Reply.Respells { t with answer := say t.answer } { u with answer := say u.answer } := by
  refine ⟨?_, respelled.events, respelled.plain⟩
  dsimp only
  rw [respelled.answer]
  exact .same (plain u.answer)

namespace Plain.Respelled
variable {p q : Plain K V}

theorem start [EquivBEq K] (config : Config) : (Plain.start config : Plain K V).Respelled (Plain.start config) :=
  ⟨⟨.nil, .nil, rfl, rfl⟩, ⟨.nil, rfl, rfl⟩, .nil, rfl, rfl⟩

theorem count (respelled : p.Respelled q) (what : Tally) {times again : Nat} (same : times = again) :
    (p.count what times).Respelled (q.count what again) := by
  obtain rfl := same
  refine { respelled with counters := ?_ }
  rw [countRecord, countRecord, respelled.counters]

theorem withLine (respelled : p.Respelled q) {l m : Line K V} (line : l.Respelled m) :
    Respelled { p with line := l } { q with line := m } := { respelled with line := line }

theorem withShelf (respelled : p.Respelled q) {s t : Shelf K V} (shelf : s.Respelled t) :
    Respelled { p with shelf := s } { q with shelf := t } := { respelled with shelf := shelf }

theorem lose (respelled : p.Respelled q) {xs ys : List K} (same : List.Forall₂ SameKey xs ys) :
    (p.lose xs).Respelled Eq (q.lose ys) where
  answer := rfl
  events := List.rel_map (fun _ _ => .reclaimed) same
  plain := respelled.count .reclaim same.length_eq

theorem clear (respelled : p.Respelled q) : p.clear.Respelled q.clear where
  shelf := ⟨.nil, .nil, respelled.shelf.capacity, respelled.shelf.byUse⟩
  line := ⟨.nil, respelled.line.bound, respelled.line.lifetime⟩
  pins := .nil
  counters := rfl
  hint := respelled.hint

theorem size (respelled : p.Respelled q) (now : Nat) : p.size now = q.size now := by
  unfold Plain.size
  rw [respelled.shelf.recent.length_eq, respelled.shelf.pinned.length_eq, (respelled.line.live now).length_eq]

theorem listing (respelled : p.Respelled q) (now : Nat) :
    Reply.Respells (.keys (p.listing now) : Reply K V) (.keys (q.listing now)) :=
  .keys (List.rel_map Shelf.Respelled.entryKeys respelled.shelf.recent)
    (.same (List.rel_map Shelf.Respelled.entryKeys respelled.shelf.pinned))
    (List.rel_map Line.Respelled.admissionKeys (respelled.line.live now))

theorem answering (respelled : p.Respelled q) {r : Reply K V} (plain : r.named = false) :
    (p.answering r).Respelled Reply.Respells (q.answering r) := ⟨.same plain, .nil, respelled⟩

theorem setSoftSize (respelled : p.Respelled q) (n : Option Nat) :
    (p.setSoftSize n).Respelled Eq (q.setSoftSize n) := by
  have bounded : Line.Respelled { p.line with bound := n } { q.line with bound := n } :=
    ⟨respelled.line.waiting, rfl, respelled.line.lifetime⟩
  obtain ⟨gone, left⟩ := bounded.fit
  exact (respelled.withLine left).lose gone

theorem purge (respelled : p.Respelled q) (now : Nat) : (p.purge now).Respelled Eq (q.purge now) := by
  obtain ⟨gone, left⟩ := respelled.line.purge now
  obtain ⟨_, events, lost⟩ := (respelled.withLine left).lose gone
  exact ⟨gone.length_eq, events, lost⟩

section settled
variable {filter : Filter K V} (blind : ∀ j k v, SameKey j k → filter j v = filter k v) (now : Nat)
include blind

theorem settle (respelled : p.Respelled q) : (p.settle filter now).Respelled Eq (q.settle filter now) := by
  have victims := respelled.shelf.surplus
  obtain ⟨gone, left⟩ := Line.Respelled.receive blind now victims respelled.line
  have evicted : List.Forall₂ Event.Respells (p.shelf.surplus.map (fun e => Event.evicted e.1 e.2))
      (q.shelf.surplus.map (fun e => Event.evicted e.1 e.2)) := by
    refine List.rel_map (fun a b same => ?_) victims
    rw [same.2]
    exact .evicted same.1 b.2
  have moved := (respelled.withShelf respelled.shelf.fitted).withLine left
  obtain ⟨_, reported, lost⟩ := (moved.count .eviction victims.length_eq).lose gone
  exact ⟨rfl, List.rel_append evicted reported, lost⟩

theorem setCacheSize (respelled : p.Respelled q) (n : Option Nat) :
    (p.setCacheSize filter now n).Respelled Eq (q.setCacheSize filter now n) := by
  have capped : Shelf.Respelled { p.shelf with capacity := n } { q.shelf with capacity := n } :=
    ⟨respelled.shelf.recent, respelled.shelf.pinned, rfl, respelled.shelf.byUse⟩
  exact (respelled.withShelf capped).settle blind now

end settled

section keyed
variable [EquivBEq K] {j k : K} (same : SameKey j k)
include same

theorem isPinned (respelled : p.Respelled q) : p.isPinned j = q.isPinned k := by
  have alike : p.pins.any (id · == j) = q.pins.any (id · == k) :=
    Keyed.anyAlong respelled.pins (fun _ _ => id) same
  exact alike

theorem lookup (respelled : p.Respelled q) (now : Nat) : p.lookup now j = q.lookup now k := by
  unfold Plain.lookup
  rw [respelled.shelf.find? same, respelled.line.lookup now same]

theorem withdraw (respelled : p.Respelled q) (now : Nat) :
    (p.withdraw now j).Respelled Eq (q.withdraw now k) := by
  have taken := respelled.withLine (respelled.line.remove same)
  unfold Plain.withdraw
  rcases respelled.line.find same with ⟨one, two⟩ | ⟨a, b, one, two, alike⟩
  · rw [one, two]
    exact ⟨rfl, .nil, respelled⟩
  · rw [one, two]
    dsimp only
    rw [respelled.line.expiredAlike now a b alike]
    split
    · exact { taken.lose (.cons same .nil) with answer := rfl }
    · exact ⟨congrArg some alike.value, .nil, taken⟩

theorem enter (respelled : p.Respelled q) (v : V) : (p.enter j v).Respelled (q.enter k v) := by
  have pinned := respelled.isPinned same
  unfold Plain.enter
  rw [pinned]
  exact respelled.withShelf (respelled.shelf.enter same v (q.isPinned k))

theorem mark (respelled : p.Respelled q) : (p.mark j).Respelled (q.mark k) := by
  have pinned := respelled.isPinned same
  unfold Plain.mark
  rw [pinned]
  split
  · exact respelled
  · exact { respelled with pins := List.rel_append respelled.pins (.cons same .nil) }

theorem unmark (respelled : p.Respelled q) :
    List.Forall₂ SameKey (without id p.pins j) (without id q.pins k) :=
  Keyed.withoutAlong respelled.pins (fun _ _ => id) same

theorem discard (respelled : p.Respelled q) (now : Nat) : (p.discard now j).Respelled Eq (q.discard now k) := by
  have removed : Respelled { p with shelf := p.shelf.remove j, pins := without id p.pins j }
      { q with shelf := q.shelf.remove k, pins := without id q.pins k } :=
    { respelled with shelf := respelled.shelf.remove same, pins := respelled.unmark same }
  obtain ⟨answer, events, taken⟩ := removed.withdraw same now
  have found := respelled.shelf.find? same
  exact ⟨congrArg₂ Option.or found answer, events, taken⟩

theorem hold (respelled : p.Respelled q) (now : Nat) : (p.hold now j).Respelled Eq (q.hold now k) := by
  have found := respelled.shelf.find? same
  obtain ⟨answer, events, taken⟩ := respelled.withdraw same now
  unfold Plain.hold
  rw [found]
  cases q.shelf.find? k with
  | some v =>
    have pinned := respelled.withShelf (respelled.shelf.pin same)
    exact ⟨rfl, .nil, pinned.mark same⟩
  | none =>
    dsimp only
    rw [answer]
    cases (q.withdraw now k).answer with
    | none => exact ⟨rfl, events, taken.mark same⟩
    | some v =>
      have promoted := taken.count .promotion (Eq.refl 1)
      have entered := promoted.withShelf (promoted.shelf.enter same v true)
      exact ⟨rfl, events, entered.mark same⟩

variable {filter : Filter K V} (blind : ∀ j k v, SameKey j k → filter j v = filter k v) (now : Nat)
include blind

theorem fetch (respelled : p.Respelled q) : (p.fetch filter now j).Respelled Eq (q.fetch filter now k) := by
  have found := respelled.shelf.find? same
  obtain ⟨answer, events, taken⟩ := respelled.withdraw same now
  unfold Plain.fetch
  rw [found]
  cases q.shelf.find? k with
  | some v =>
    have touched := respelled.withShelf (respelled.shelf.touch same)
    exact ⟨rfl, .nil, touched.count .hit (Eq.refl 1)⟩
  | none =>
    dsimp only
    rw [answer]
    cases (q.withdraw now k).answer with
    | none => exact ⟨rfl, events, taken.count .miss (Eq.refl 1)⟩
    | some v =>
      have promoted := (taken.count .hit (Eq.refl 1)).count .promotion (Eq.refl 1)
      obtain ⟨_, heard, settled⟩ := (promoted.enter same v).settle blind now
      exact ⟨rfl, List.rel_append events heard, settled⟩

theorem store (respelled : p.Respelled q) (v : V) :
    (p.store filter now j v).Respelled Eq (q.store filter now k v) := by
  have found := respelled.shelf.find? same
  obtain ⟨answer, events, taken⟩ := respelled.withdraw same now
  unfold Plain.store
  rw [found]
  cases q.shelf.find? k with
  | some old => exact ⟨rfl, .nil, respelled.withShelf ((respelled.shelf.replace same v).touch same)⟩
  | none =>
    obtain ⟨_, heard, settled⟩ := ((taken.enter same v).count .insert (Eq.refl 1)).settle blind now
    exact ⟨answer, List.rel_append events heard, settled⟩

theorem release (respelled : p.Respelled q) :
    (p.release filter now j).Respelled Eq (q.release filter now k) := by
  have found := respelled.shelf.find? same
  have answer := respelled.isPinned same
  have freed : Respelled { p with shelf := p.shelf.unpin j, pins := without id p.pins j }
      { q with shelf := q.shelf.unpin k, pins := without id q.pins k } :=
    { respelled with shelf := respelled.shelf.unpin same, pins := respelled.unmark same }
  unfold Plain.release
  rw [found]
  cases q.shelf.find? k with
  | some v => exact { freed.settle blind now with answer := answer }
  | none => exact ⟨answer, .nil, freed⟩

end keyed

variable [EquivBEq K] {filter : Filter K V} (blind : ∀ j k v, SameKey j k → filter j v = filter k v) (now : Nat)

include blind in
theorem storeAll {xs ys : List (K × V)} (same : List.Forall₂ SameEntry xs ys) (respelled : p.Respelled q) :
    (p.storeAll filter now xs).Respelled Eq (q.storeAll filter now ys) := by
  induction same generalizing p q with
  | nil => exact ⟨rfl, .nil, respelled⟩
  | @cons d e xs ys same rest ih =>
    obtain ⟨k, v⟩ := e
    obtain rfl : d.2 = v := same.2
    have first := respelled.store same.1 blind now d.2
    obtain ⟨_, others, last⟩ := ih first.plain
    exact ⟨rfl, List.rel_append first.events others, last⟩

variable [Identity K] (even : ∀ j k : K, SameKey j k → Identity.valid j = Identity.valid k)

include even

omit [EquivBEq K] in
theorem given (respelled : p.Respelled q) (op : KeyedOp) {xs ys : List K} (same : List.Forall₂ SameKey xs ys)
    {t u : Turn K V (Reply K V)} (turns : t.Respelled Reply.Respells u) :
    (p.given op xs t).Respelled Reply.Respells (q.given op ys u) := by
  have alike : xs.all Identity.valid = ys.all Identity.valid := by
    induction same with
    | nil => rfl
    | @cons j k xs ys first rest ih => rw [List.all_cons, List.all_cons, even j k first, ih]
  unfold Plain.given
  rw [alike]
  split
  · exact turns
  · exact respelled.answering rfl

include blind

theorem step (respelled : p.Respelled q) {call other : Call K V} (same : call.Respells other) :
    (p.step filter now call).Respelled Reply.Respells (q.step filter now other) := by
  have one {j k : K} (same : SameKey j k) : List.Forall₂ SameKey [j] [k] := .cons same .nil
  cases same with
  | get same => exact respelled.given even .get (one same) ((respelled.fetch same blind now).say .value (fun _ => rfl))
  | put same v =>
    exact respelled.given even .put (one same) ((respelled.store same blind now v).say .value (fun _ => rfl))
  | putAll same =>
    have keys := List.rel_map Shelf.Respelled.entryKeys same
    exact respelled.given even .putAll keys ((storeAll blind now same respelled).say (fun _ => .done) (fun _ => rfl))
  | remove same =>
    exact respelled.given even .remove (one same) ((respelled.discard same now).say .value (fun _ => rfl))
  | pin same => exact respelled.given even .pin (one same) ((respelled.hold same now).say .flag (fun _ => rfl))
  | unpin same =>
    exact respelled.given even .unpin (one same) ((respelled.release same blind now).say .flag (fun _ => rfl))
  | isPinned same =>
    refine respelled.given even .isPinned (one same) ?_
    rw [respelled.isPinned same]
    exact respelled.answering rfl
  | containsKey same =>
    refine respelled.given even .containsKey (one same) ?_
    rw [respelled.lookup same now]
    exact respelled.answering rfl
  | peek same =>
    refine respelled.given even .peek (one same) ?_
    rw [respelled.lookup same now]
    exact respelled.answering rfl
  | unkeyed bare =>
    cases call with
    | size =>
      unfold Plain.step
      rw [respelled.size now]
      exact respelled.answering rfl
    | isEmpty =>
      unfold Plain.step
      rw [respelled.size now]
      exact respelled.answering rfl
    | keys => exact ⟨respelled.listing now, .nil, respelled⟩
    | pinnedKeys => exact ⟨.pinned (.same respelled.pins), .nil, respelled⟩
    | clear => exact ⟨.same rfl, .nil, respelled.clear⟩
    | setCacheSize n => exact (respelled.setCacheSize blind now n).say (fun _ => .done) (fun _ => rfl)
    | setSoftSize n => exact (respelled.setSoftSize n).say (fun _ => .done) (fun _ => rfl)
    | purge => exact (respelled.purge now).say .count (fun _ => rfl)
    | cacheSize =>
      unfold Plain.step
      rw [respelled.shelf.capacity]
      exact respelled.answering rfl
    | softSize =>
      unfold Plain.step
      rw [respelled.line.bound]
      exact respelled.answering rfl
    | isLru =>
      unfold Plain.step
      rw [respelled.shelf.byUse]
      exact respelled.answering rfl
    | concurrencyHint =>
      unfold Plain.step
      rw [respelled.hint]
      exact respelled.answering rfl
    | counters =>
      unfold Plain.step
      rw [respelled.counters]
      exact respelled.answering rfl
    | resetCounters => exact ⟨.same rfl, .nil, { respelled with counters := rfl }⟩
    | _ => exact Bool.noConfusion bare

end Plain.Respelled

/-- Two traces of the same moves, one by one the same but for the spelling of the keys. -/
inductive Retold : List (Move K V) → List (Reply K V × List (Event K V)) →
    List (Reply K V × List (Event K V)) → Prop where
  | nil : Retold [] [] []
  | wait (time : Nat) {moves first second} (later : Retold moves first second) :
      Retold (.wait time :: moves) ((.done, []) :: first) ((.done, []) :: second)
  | call (call : Call K V) {a b moves first second} (answer : a.1.Respells b.1)
      (events : call.Repeats a.2 b.2) (later : Retold moves first second) :
      Retold (.call call :: moves) (a :: first) (b :: second)

namespace Session
variable [EquivBEq K] [Identity K] {s r : Session K V} {p q : Plain K V} {filter : Filter K V}
  (even : ∀ j k : K, SameKey j k → Identity.valid j = Identity.valid k)
  (blind : ∀ j k v, SameKey j k → filter j v = filter k v)
include even blind

theorem Tracks.respelled {first second : List (Move K V)} (same : List.Forall₂ Move.Respells first second)
    (one : s.Tracks p) (two : r.Tracks q) (respelled : p.Respelled q) (together : s.now = r.now) :
    Retold first (s.trace filter first) (r.trace filter second) ∧
    (s.run filter first).cache.counters = (r.run filter second).cache.counters := by
  induction same generalizing s r p q with
  | nil => exact ⟨.nil, one.shows.counters.trans (respelled.counters.trans two.shows.counters.symm)⟩
  | @cons a b first second same rest ih =>
    obtain ⟨_, d⟩ := r
    obtain rfl := together
    cases same with
    | wait time =>
      obtain ⟨told, counters⟩ := ih (one.waited time) (two.waited time) respelled rfl
      exact ⟨.wait time told, counters⟩
    | @call call other same =>
      obtain ⟨answer, events, after⟩ := respelled.step blind s.now even same
      have left := one.shows.step one.sound filter s.now call
      have right := two.shows.step two.sound filter s.now other
      obtain ⟨told, counters⟩ := ih (one.call filter s.now call) (two.call filter s.now other) after rfl
      have replied := answer.agreed left.answer right.answer
      have heard := same.repeats left.events events right.events
      exact ⟨.call call replied heard told, counters⟩

theorem runRespelled {config : Config} (started : start config = .ok s) {first second : List (Move K V)}
    (same : List.Forall₂ Move.Respells first second) :
    Retold first (s.trace filter first) (s.trace filter second) ∧
    (s.run filter first).cache.counters = (s.run filter second).cache.counters := by
  obtain ⟨tracks, _⟩ := startTracks started
  exact tracks.respelled even blind same tracks (.start config) rfl

omit [BEq K] [EquivBEq K] [Identity K] even blind in
/- Either key is evicted and comes back, one by a get and one by a pin, and each time its letters are in
another case. -/
theorem runRespelledSmall :
    let config : Config := { lru := true, cacheSize := some 1 }
    let filter : Filter CaselessText Nat := fun k _ => !(k == ⟨"Q"⟩)
    let first : List (Move CaselessText Nat) :=
      [.call (.put ⟨"Key"⟩ 1), .call (.put ⟨"ring"⟩ 2), .wait 5, .call (.get ⟨"key"⟩), .call (.pin ⟨"Ring"⟩),
        .call .keys]
    let second : List (Move CaselessText Nat) :=
      [.call (.put ⟨"key"⟩ 1), .call (.put ⟨"Ring"⟩ 2), .wait 5, .call (.get ⟨"Key"⟩), .call (.pin ⟨"ring"⟩),
        .call .keys]
    let s : Session CaselessText Nat := ⟨0, .empty true (some 1) none none⟩
    (start config = .ok s ∧ List.Forall₂ Move.Respells first second) ∧
    Retold first (s.trace filter first) (s.trace filter second) ∧
    (s.run filter first).cache.counters = (s.run filter second).cache.counters := by
  intro config filter first second s
  have started : start config = .ok s := rfl
  have even : ∀ j k : CaselessText, SameKey j k → Identity.valid j = Identity.valid k := fun _ _ _ => rfl
  have blind : ∀ j k v, SameKey j k → filter j v = filter k v :=
    fun _ _ _ same => congrArg not (BEq.congr_left same)
  have key : SameKey (⟨"Key"⟩ : CaselessText) ⟨"key"⟩ := CaselessText.lettersAlike (by decide)
  have ring : SameKey (⟨"ring"⟩ : CaselessText) ⟨"Ring"⟩ := CaselessText.lettersAlike (by decide)
  have same : List.Forall₂ Move.Respells first second :=
    .cons (.call (.put key 1)) (.cons (.call (.put ring 2)) (.cons (.wait 5)
      (.cons (.call (.get (BEq.symm key))) (.cons (.call (.pin (BEq.symm ring)))
        (.cons (.call (.unkeyed rfl)) .nil)))))
  exact ⟨⟨started, same⟩, runRespelled even blind started same⟩

end Session
end TieredCache
