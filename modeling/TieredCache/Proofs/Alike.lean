import TieredCache.Proofs.Refinement
import TieredCache.Proofs.Swept

/-! Plain caches alike at a time: the same but for expired admissions and for the count of losses.
They answer alike and stay alike whatever is asked of them, and are heard alike but for reports of
expired keys; and a purge is not to be seen in either. -/
namespace TieredCache
open Keyed (Apart find without copies)
variable {K V A : Type}

def Counters.unreclaimed (c : Counters) : Counters := { c with reclaimed := 0 }

theorem Counters.recordUnreclaimed (c : Counters) (what : Tally) (n : Nat) :
    (c.record what n).unreclaimed = if what = .reclaim then c.unreclaimed else c.unreclaimed.record what n := by
  cases what <;> rfl

/-- The events that report one of those keys. -/
def Event.Reports (keys : K → Prop) : Event K V → Prop
  | .reclaimed k => keys k
  | .evicted _ _ => False

/-- The same reply, but for the order of pinned keys and for the count of losses. -/
inductive Reply.Same : Reply K V → Reply K V → Prop where
  | self (r : Reply K V) : Same r r
  | keys {l m : Listing K} (recent : l.recent = m.recent) (pinned : l.pinned.Perm m.pinned)
      (overflow : l.overflow = m.overflow) : Same (.keys l) (.keys m)
  | counters {c d : Counters} (same : c.unreclaimed = d.unreclaimed) : Same (.counters c) (.counters d)

theorem Reply.Same.symm {a b : Reply K V} (same : a.Same b) : b.Same a := by
  cases same with
  | self r => exact .self _
  | keys recent pinned overflow => exact .keys recent.symm pinned.symm overflow.symm
  | counters same => exact .counters same.symm

theorem Reply.Same.trans {a b c : Reply K V} (one : a.Same b) (two : b.Same c) : a.Same c := by
  cases one with
  | self r => exact two
  | keys recent pinned overflow =>
    cases two with
    | self r => exact .keys recent pinned overflow
    | keys more others rest => exact .keys (recent.trans more) (pinned.trans others) (overflow.trans rest)
  | counters same =>
    cases two with
    | self r => exact .counters same
    | counters also => exact .counters (same.trans also)

theorem Reply.Agrees.same {a b : Reply K V} (agrees : a.Agrees b) : a.Same b := by
  unfold Agrees at agrees
  split at agrees
  · exact .keys agrees.1 agrees.2.1 agrees.2.2
  · exact agrees ▸ .self _

theorem Event.reportsMono {keys other : K → Prop} (wider : ∀ k, keys k → other k) (event : Event K V)
    (reports : event.Reports keys) : event.Reports other := by
  cases event with
  | reclaimed k => exact wider k reports
  | evicted k v => exact reports

namespace Plain

structure Alike (now : Nat) (p q : Plain K V) : Prop where
  shelf : p.shelf = q.shelf
  line : p.line.swept now = q.line.swept now
  pins : p.pins = q.pins
  counters : p.counters.unreclaimed = q.counters.unreclaimed
  hint : p.concurrencyHint = q.concurrencyHint

end Plain

structure Turn.Alike [BEq K] (now : Nat) (p q : Plain K V) (t u : Turn K V A) : Prop where
  answer : t.answer = u.answer
  events : SameBut (Event.Reports (p.line.late now)) (Event.Reports (q.line.late now)) t.events u.events
  plain : t.plain.Alike now u.plain

namespace Plain
variable {now : Nat} {p q : Plain K V}

theorem Alike.refl (now : Nat) (p : Plain K V) : p.Alike now p := ⟨rfl, rfl, rfl, rfl, rfl⟩

theorem Alike.symm (alike : p.Alike now q) : q.Alike now p :=
  ⟨alike.shelf.symm, alike.line.symm, alike.pins.symm, alike.counters.symm, alike.hint.symm⟩

theorem Alike.trans {r : Plain K V} (one : p.Alike now q) (two : q.Alike now r) : p.Alike now r :=
  ⟨one.shelf.trans two.shelf, one.line.trans two.line, one.pins.trans two.pins,
    one.counters.trans two.counters, one.hint.trans two.hint⟩

theorem Alike.live (alike : p.Alike now q) : p.line.live now = q.line.live now :=
  (Line.sweptParts alike.line).1

theorem Alike.withShelf (alike : p.Alike now q) (shelf : Shelf K V) :
    Alike now { p with shelf := shelf } { q with shelf := shelf } :=
  ⟨rfl, alike.line, alike.pins, alike.counters, alike.hint⟩

theorem Alike.withLine (alike : p.Alike now q) {l m : Line K V} (line : l.swept now = m.swept now) :
    Alike now { p with line := l } { q with line := m } :=
  ⟨alike.shelf, line, alike.pins, alike.counters, alike.hint⟩

theorem Alike.count (alike : p.Alike now q) (what : Tally) (n : Nat) :
    (p.count what n).Alike now (q.count what n) := by
  refine ⟨alike.shelf, alike.line, alike.pins, ?_, alike.hint⟩
  rw [countRecord, countRecord, Counters.recordUnreclaimed, Counters.recordUnreclaimed, alike.counters]

/- Losses count for nothing here. -/
theorem lostAlike (p : Plain K V) (now n : Nat) : (p.count .reclaim n).Alike now p := by
  refine ⟨rfl, rfl, rfl, ?_, rfl⟩
  rw [countRecord]
  rfl

theorem Alike.lost (alike : p.Alike now q) (m n : Nat) :
    (p.count .reclaim m).Alike now (q.count .reclaim n) :=
  (p.lostAlike now m).trans (alike.trans (q.lostAlike now n).symm)

theorem Alike.later (alike : p.Alike now q) (time : Nat) : p.Alike (now + time) q := by
  obtain ⟨_, bound, lifetime⟩ := Line.sweptParts alike.line
  have live := congrArg (fun l : Line K V => l.live (now + time)) alike.line
  rw [Line.liveLater, Line.liveLater] at live
  refine ⟨alike.shelf, ?_, alike.pins, alike.counters, alike.hint⟩
  unfold Line.swept
  rw [live, bound, lifetime]

theorem purgeAlike (alike : p.Alike now q) : (p.purge now).plain.Alike now q := by
  have swept : (p.line.purge now).2.swept now = p.line.swept now :=
    congrArg (fun live => ({ p.line with waiting := live } : Line K V)) (p.line.liveLive now)
  have left : Alike now { p with line := (p.line.purge now).2 } q :=
    ⟨alike.shelf, swept.trans alike.line, alike.pins, alike.counters, alike.hint⟩
  exact (lostAlike _ now _).trans left

theorem Alike.size (alike : p.Alike now q) : p.size now = q.size now := by
  rw [Plain.size, Plain.size, alike.shelf, alike.live]

theorem Alike.listing (alike : p.Alike now q) : p.listing now = q.listing now := by
  rw [Plain.listing, Plain.listing, alike.shelf, alike.live]

variable [BEq K]

theorem Alike.isPinned (alike : p.Alike now q) (k : K) : p.isPinned k = q.isPinned k := by
  rw [Plain.isPinned, Plain.isPinned, alike.pins]

theorem Alike.waits (alike : p.Alike now q) (k : K) : p.line.lookup now k = q.line.lookup now k := by
  rw [Line.lookup, Line.lookup, alike.live]

theorem Alike.lookup (alike : p.Alike now q) (k : K) : p.lookup now k = q.lookup now k := by
  rw [Plain.lookup, Plain.lookup, alike.shelf, alike.waits]

theorem Alike.enter (alike : p.Alike now q) (k : K) (v : V) : (p.enter k v).Alike now (q.enter k v) := by
  unfold Plain.enter
  rw [alike.isPinned, alike.shelf]
  exact alike.withShelf _

theorem Alike.mark (alike : p.Alike now q) (k : K) : (p.mark k).Alike now (q.mark k) := by
  unfold Plain.mark
  rw [alike.isPinned]
  split
  · exact alike
  · exact ⟨alike.shelf, alike.line, congrArg (· ++ [k]) alike.pins, alike.counters, alike.hint⟩

theorem Alike.unmark (alike : p.Alike now q) (k : K) (shelf : Shelf K V) :
    Alike now { p with shelf := shelf, pins := without id p.pins k }
      { q with shelf := shelf, pins := without id q.pins k } :=
  ⟨rfl, alike.line, congrArg (without id · k) alike.pins, alike.counters, alike.hint⟩

theorem Alike.answering (alike : p.Alike now q) {a : A} :
    Turn.Alike now p q { answer := a, events := [], plain := p } { answer := a, events := [], plain := q } :=
  ⟨rfl, SameBut.self [], alike⟩

end Plain

/-- Reports of expired keys that one operation makes after another were open before both. -/
theorem SameBut.reported [BEq K] {filter : Filter K V} {now : Nat} {l m l' m' : Line K V}
    {xs ys : List (Event K V)} (first : l.Timely now) (second : m.Timely now)
    (one : l.Changes filter now l') (two : m.Changes filter now m')
    (same : SameBut (Event.Reports (l'.late now)) (Event.Reports (m'.late now)) xs ys) :
    SameBut (Event.Reports (l.late now)) (Event.Reports (m.late now)) xs ys :=
  same.mono (Event.reportsMono (one.late first)) (Event.reportsMono (two.late second))

theorem SameBut.reclaimed {first second : K → Prop} {xs ys : List K} (same : SameBut first second xs ys) :
    SameBut (Event.Reports first) (Event.Reports second) (xs.map .reclaimed : List (Event K V))
      (ys.map .reclaimed) := by
  obtain ⟨common, one, two⟩ := same
  exact ⟨common.map .reclaimed, one.map _ (fun _ late => late), two.map _ (fun _ late => late)⟩

/-- Alike, sound and in order of time: what two runs keep of each other. -/
structure Plain.Twins [BEq K] [Identity K] (now : Nat) (p q : Plain K V) : Prop where
  alike : p.Alike now q
  first : p.Sound
  second : q.Sound
  firstTimely : p.line.Timely now
  secondTimely : q.line.Timely now

namespace Plain
variable [BEq K] [EquivBEq K] {now : Nat} {p q : Plain K V}

theorem settleAlike (alike : p.Alike now q) (first : p.line.Timely now) (second : q.line.Timely now)
    (filter : Filter K V) : Turn.Alike now p q (p.settle filter now) (q.settle filter now) := by
  obtain ⟨received, dropped⟩ := Line.receiveAlike alike.line first second filter q.shelf.surplus
  unfold settle
  rw [alike.shelf]
  refine ⟨rfl, (SameBut.self _).append dropped.reclaimed, ?_⟩
  exact (((alike.withShelf _).withLine received).count _ _).lost _ _

omit [EquivBEq K] in
theorem withdrawSwept (p : Plain K V) (now : Nat) (k : K) :
    Alike now (p.withdraw now k).plain { p with line := p.line.remove k } ∧
    Among (Event.Reports (p.line.late now)) [] (p.withdraw now k).events := by
  have nothing : Among (Event.Reports (p.line.late now)) [] ([] : List (Event K V)) := .nil
  unfold withdraw
  cases found : find Admission.key p.line.waiting k with
  | none =>
    have same : p.line.remove k = p.line := by
      rw [Line.remove, Keyed.withoutNone (Keyed.findNone.mp found)]
    rw [same]
    exact ⟨Alike.refl now _, nothing⟩
  | some a =>
    obtain ⟨waits, at_k⟩ := Keyed.findMem found
    cases expired : a.expired p.line.lifetime now with
    | true =>
      simp only [expired, if_true]
      exact ⟨lostAlike _ now 1, .put ⟨a, waits, at_k, expired⟩ .nil⟩
    | false =>
      simp only [expired, Bool.false_eq_true, if_false]
      exact ⟨Alike.refl now _, nothing⟩

theorem withdrawAlike (alike : p.Alike now q) (first : p.Single) (second : q.Single) (k : K) :
    Turn.Alike now p q (p.withdraw now k) (q.withdraw now k) := by
  obtain ⟨left, reported⟩ := withdrawSwept p now k
  obtain ⟨right, also⟩ := withdrawSwept q now k
  have line : (p.line.remove k).swept now = (q.line.remove k).swept now := by
    rw [Line.removeSwept, Line.removeSwept, alike.line]
  refine ⟨?_, ⟨[], reported, also⟩, left.trans ((alike.withLine line).trans right.symm)⟩
  rw [withdrawAnswer first, withdrawAnswer second, alike.waits]

namespace Twins
variable [Identity K]

theorem fetch (twins : Twins now p q) (filter : Filter K V) (k : K) :
    Turn.Alike now p q (p.fetch filter now k) (q.fetch filter now k) := by
  obtain ⟨alike, first, second, timely, also⟩ := twins
  have taken := withdrawAlike alike first.single second.single k
  have one : p.line.Changes filter now (p.withdraw now k).plain.line := changesWithdraw .same k
  have two : q.line.Changes filter now (q.withdraw now k).plain.line := changesWithdraw .same k
  unfold Plain.fetch
  rw [alike.shelf]
  cases q.shelf.find? k with
  | some v => exact ⟨rfl, SameBut.self [], (alike.withShelf _).count .hit 1⟩
  | none =>
    dsimp only
    rw [taken.answer]
    cases (q.withdraw now k).answer with
    | none => exact ⟨rfl, taken.events, taken.plain.count .miss 1⟩
    | some v =>
      have entered := ((taken.plain.count .hit 1).count .promotion 1).enter k v
      have settled := settleAlike entered (timely.changes one) (also.changes two) filter
      exact ⟨rfl, taken.events.append (settled.events.reported timely also one two), settled.plain⟩

theorem store (twins : Twins now p q) (filter : Filter K V) (k : K) (v : V) :
    Turn.Alike now p q (p.store filter now k v) (q.store filter now k v) := by
  obtain ⟨alike, first, second, timely, also⟩ := twins
  have taken := withdrawAlike alike first.single second.single k
  have one : p.line.Changes filter now (p.withdraw now k).plain.line := changesWithdraw .same k
  have two : q.line.Changes filter now (q.withdraw now k).plain.line := changesWithdraw .same k
  unfold Plain.store
  rw [alike.shelf]
  cases q.shelf.find? k with
  | some old => exact ⟨rfl, SameBut.self [], alike.withShelf _⟩
  | none =>
    have entered := (taken.plain.enter k v).count .insert 1
    have settled := settleAlike entered (timely.changes one) (also.changes two) filter
    exact ⟨taken.answer, taken.events.append (settled.events.reported timely also one two), settled.plain⟩

theorem stored (twins : Twins now p q) (filter : Filter K V) {k : K} (valid : Identity.valid k = true)
    (v : V) : Twins now (p.store filter now k v).plain (q.store filter now k v).plain :=
  ⟨(twins.store filter k v).plain, (storeLawful twins.first filter now valid v).sound,
    (storeLawful twins.second filter now valid v).sound,
    twins.firstTimely.changes (changesStore .same k v), twins.secondTimely.changes (changesStore .same k v)⟩

theorem storeAll (twins : Twins now p q) (filter : Filter K V) {entries : List (K × V)}
    (valid : ∀ e ∈ entries, Identity.valid e.1 = true) :
    Turn.Alike now p q (p.storeAll filter now entries) (q.storeAll filter now entries) := by
  induction entries generalizing p q with
  | nil => exact twins.alike.answering
  | cons e rest ih =>
    have here := twins.store filter e.1 e.2
    have others := ih (twins.stored filter (valid e (by simp)) e.2) (fun d mem => valid d (by simp [mem]))
    have one : p.line.Changes filter now (p.store filter now e.1 e.2).plain.line := changesStore .same e.1 e.2
    have two : q.line.Changes filter now (q.store filter now e.1 e.2).plain.line := changesStore .same e.1 e.2
    have later := others.events.reported twins.firstTimely twins.secondTimely one two
    exact ⟨rfl, here.events.append later, others.plain⟩

theorem discard (twins : Twins now p q) (k : K) :
    Turn.Alike now p q (p.discard now k) (q.discard now k) := by
  have dropped := twins.alike.unmark k (q.shelf.remove k)
  have first := (twins.first.drop k).single
  have second := (twins.second.drop k).single
  rw [twins.alike.shelf] at first
  have taken := withdrawAlike dropped first second k
  unfold Plain.discard
  rw [twins.alike.shelf]
  exact ⟨congrArg ((q.shelf.find? k).or ·) taken.answer, taken.events, taken.plain⟩

theorem hold (twins : Twins now p q) (k : K) :
    Turn.Alike now p q (p.hold now k) (q.hold now k) := by
  have alike := twins.alike
  have taken := withdrawAlike alike twins.first.single twins.second.single k
  unfold Plain.hold
  rw [alike.shelf]
  cases q.shelf.find? k with
  | some v => exact ⟨rfl, SameBut.self [], (alike.withShelf _).mark k⟩
  | none =>
    dsimp only
    rw [taken.answer]
    cases (q.withdraw now k).answer with
    | none => exact ⟨rfl, taken.events, taken.plain.mark k⟩
    | some v =>
      have promoted := taken.plain.count .promotion 1
      rw [promoted.shelf]
      exact ⟨rfl, taken.events, (promoted.withShelf _).mark k⟩

theorem release (twins : Twins now p q) (filter : Filter K V) (k : K) :
    Turn.Alike now p q (p.release filter now k) (q.release filter now k) := by
  have alike := twins.alike
  unfold Plain.release
  rw [alike.shelf, alike.isPinned]
  cases q.shelf.find? k with
  | some v =>
    have settled := settleAlike (alike.unmark k (q.shelf.unpin k)) twins.firstTimely twins.secondTimely filter
    exact ⟨rfl, settled.events, settled.plain⟩
  | none => exact ⟨rfl, SameBut.self [], alike.unmark k _⟩

theorem setCacheSize (twins : Twins now p q) (filter : Filter K V) (n : Option Nat) :
    Turn.Alike now p q (p.setCacheSize filter now n) (q.setCacheSize filter now n) := by
  have resized := twins.alike.withShelf { q.shelf with capacity := n }
  have settled := settleAlike resized twins.firstTimely twins.secondTimely filter
  unfold Plain.setCacheSize
  rw [twins.alike.shelf]
  exact ⟨settled.answer, settled.events, settled.plain⟩

theorem setSoftSize (twins : Twins now p q) (n : Option Nat) :
    Turn.Alike now p q (p.setSoftSize n) (q.setSoftSize n) := by
  let line : Line K V := { p.line with bound := n }
  let other : Line K V := { q.line with bound := n }
  have same : line.swept now = other.swept now :=
    congrArg (fun l : Line K V => { l with bound := n }) twins.alike.line
  have timely : line.Timely now := twins.firstTimely.fewer (List.Sublist.refl _) rfl
  have also : other.Timely now := twins.secondTimely.fewer (List.Sublist.refl _) rfl
  obtain ⟨left, dropped⟩ := Line.fitSwept timely
  obtain ⟨right, others⟩ := Line.fitSwept also
  rw [← same] at right others
  have events : SameBut (line.late now) (other.late now) (line.fit).1 (other.fit).1 := ⟨_, dropped, others⟩
  exact ⟨rfl, events.reclaimed, (twins.alike.withLine (left.trans right.symm)).lost _ _⟩

omit [EquivBEq K] in
theorem told (twins : Twins now p q) (op : KeyedOp) (keys : List K) {t u : Turn K V A}
    (say : A → Reply K V) (alike : (∀ k ∈ keys, Identity.valid k = true) → Turn.Alike now p q t u) :
    Turn.Alike now p q (p.given op keys { t with answer := say t.answer })
      (q.given op keys { u with answer := say u.answer }) := by
  unfold Plain.given
  cases valid : keys.all Identity.valid with
  | false => exact twins.alike.answering
  | true =>
    obtain ⟨answer, events, plain⟩ := alike (List.all_eq_true.mp valid)
    exact ⟨congrArg say answer, events, plain⟩

omit [EquivBEq K] in
theorem asked (twins : Twins now p q) (op : KeyedOp) (k : K) {a b : A} (say : A → Reply K V)
    (same : a = b) :
    Turn.Alike now p q (p.given op [k] (p.answering (say a))) (q.given op [k] (q.answering (say b))) := by
  subst same
  exact twins.told op [k] say (t := { answer := a, events := [], plain := p })
    (u := { answer := a, events := [], plain := q }) (fun _ => twins.alike.answering)

omit [EquivBEq K] in
theorem shown (twins : Twins now p q) {a b : Reply K V} (same : a = b) :
    Turn.Alike now p q (p.answering a) (q.answering b) := same ▸ twins.alike.answering

theorem step (twins : Twins now p q) (filter : Filter K V) {call : Call K V} (purge : call ≠ .purge)
    (counters : call ≠ .counters) :
    Turn.Alike now p q (p.step filter now call) (q.step filter now call) := by
  have alike := twins.alike
  cases call with
  | get k => exact twins.told .get [k] .value (fun _ => twins.fetch filter k)
  | put k v => exact twins.told .put [k] .value (fun _ => twins.store filter k v)
  | putAll entries =>
    refine twins.told .putAll _ (fun _ => .done) (fun valid => ?_)
    exact twins.storeAll filter (fun e mem => valid e.1 (List.mem_map_of_mem mem))
  | remove k => exact twins.told .remove [k] .value (fun _ => twins.discard k)
  | pin k => exact twins.told .pin [k] .flag (fun _ => twins.hold k)
  | unpin k => exact twins.told .unpin [k] .flag (fun _ => twins.release filter k)
  | isPinned k => exact twins.asked .isPinned k .flag (alike.isPinned k)
  | containsKey k => exact twins.asked .containsKey k .flag (congrArg Option.isSome (alike.lookup k))
  | peek k => exact twins.asked .peek k .value (alike.lookup k)
  | size => exact twins.shown (congrArg Reply.count alike.size)
  | isEmpty => exact twins.shown (congrArg (fun n => Reply.flag (n == 0)) alike.size)
  | keys => exact twins.shown (congrArg Reply.keys alike.listing)
  | pinnedKeys => exact twins.shown (congrArg Reply.pinned alike.pins)
  | clear =>
    have shelf := congrArg (fun s => ({ s with recent := [], pinned := [] } : Shelf K V)) alike.shelf
    have line := congrArg (fun l => ({ l with waiting := [] } : Line K V)) alike.line
    exact ⟨rfl, SameBut.self [], shelf, line, rfl, rfl, alike.hint⟩
  | setCacheSize n =>
    obtain ⟨_, events, plain⟩ := twins.setCacheSize filter n
    exact ⟨rfl, events, plain⟩
  | setSoftSize n =>
    obtain ⟨_, events, plain⟩ := twins.setSoftSize n
    exact ⟨rfl, events, plain⟩
  | purge => exact absurd rfl purge
  | cacheSize => exact twins.shown (congrArg (fun s : Shelf K V => Reply.limit s.capacity) alike.shelf)
  | softSize => exact twins.shown (congrArg Reply.limit (Line.sweptParts alike.line).2.1)
  | isLru => exact twins.shown (congrArg (fun s : Shelf K V => Reply.flag s.byUse) alike.shelf)
  | concurrencyHint => exact twins.shown (congrArg Reply.limit alike.hint)
  | counters => exact absurd rfl counters
  | resetCounters => exact ⟨rfl, SameBut.self [], alike.shelf, alike.line, alike.pins, rfl, alike.hint⟩

end Twins
end Plain
end TieredCache
