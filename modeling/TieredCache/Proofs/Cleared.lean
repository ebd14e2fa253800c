import TieredCache.Proofs.Admitting
import TieredCache.Proofs.CrossTier
import TieredCache.Proofs.Victims

/-! What an admission to the overflow tier of a cache leaves behind. The clock of a session never goes back,
so that every offer a call makes finds the tier in order of time, and an admission sweeps it clean. What the
call does after that brings nothing in that has expired: a purge right after finds nothing. -/
namespace TieredCache
open Keyed (Apart find without)
variable {K V A : Type}

namespace Line
variable {l m : Line K V} {now : Nat}

theorem Timely.offerClean (timely : l.Timely now) (opened : l.bound ≠ some 0) {filter : Filter K V} {k : K} {v : V}
    (accepted : filter k v = true) : (l.offer filter now k v).2.Clean now := by
  unfold Line.offer enqueue
  rw [if_pos ⟨accepted, opened⟩, timely.parted.2]
  exact (timely.joinedClean (List.Sublist.refl _) k v).fewer (List.drop_sublist _ _) rfl

variable [BEq K]

/- What has expired when a change is done was waiting before it. -/
theorem Clean.changes {filter : Filter K V} (clean : l.Clean now) (timely : l.Timely now)
    (changes : l.Changes filter now m) : m.Clean now := by
  obtain ⟨lifetime, past⟩ := changes.past timely
  intro a mem
  rw [lifetime]
  cases late : a.expired l.lifetime now with
  | false => rfl
  | true => exact late.symm.trans (clean a (past a mem late))

theorem Timely.receiveClean {filter : Filter K V} {victims : List (K × V)} (timely : l.Timely now)
    (opened : l.bound ≠ some 0) {e : K × V} (mem : e ∈ victims) (accepted : filter e.1 e.2 = true) :
    (l.receive filter now victims).2.Clean now := by
  induction victims generalizing l with
  | nil => exact absurd mem List.not_mem_nil
  | cons d rest ih =>
    have offered := timely.offer filter d.1 d.2
    rcases List.mem_cons.mp mem with rfl | later
    · exact (timely.offerClean opened accepted).changes offered (.received rest .same)
    · have bound := (l.offerKeeps filter now d.1 d.2).1
      exact ih offered (bound ▸ opened) later

end Line

namespace Overflow
variable [BEq K] {o : Overflow K V} {now : Nat}

/-- The tier holds its admissions in order of time. -/
def Timely (now : Nat) (o : Overflow K V) : Prop := ∃ l, o.Holds l ∧ l.Timely now

variable [EquivBEq K]

theorem Timely.withdraw (timely : o.Timely now) (k : K) : (o.withdraw now k).2.Timely now := by
  obtain ⟨l, holds, sorted⟩ := timely
  have taken : (l.step now (.withdraw k)).2.Timely now := sorted.stepOther rfl
  exact ⟨_, (withdrawHolds holds now k).2, taken⟩

theorem Timely.accept (timely : o.Timely now) (k : K) (v : V) : (o.accept now k v).2.Timely now := by
  obtain ⟨l, holds, sorted⟩ := timely
  exact ⟨_, (acceptHolds holds now k v).2, sorted.accept k v⟩

theorem Leads.timely {filter : Filter K V} {u : Overflow K V} {offers : List (K × Overflow K V)}
    (leads : o.Leads filter now offers u) (timely : o.Timely now) : ∀ offer ∈ offers, offer.2.Timely now := by
  induction leads with
  | done o => exact fun _ mem => absurd mem List.not_mem_nil
  | withdrawn k later ih => exact ih (timely.withdraw k)
  | @offered o u offers k v accepted later ih => exact List.forall_mem_cons.mpr ⟨timely, ih (timely.accept k v)⟩

theorem Timely.admits (timely : o.Timely now) {k : K} {v : V} {displaced : List K} {left : Overflow K V}
    (accepted : o.accept now k v = (.admitted displaced, left)) : o.Admits now k v displaced left := by
  obtain ⟨l, holds, sorted⟩ := timely
  exact admitsTimely holds sorted accepted

theorem Timely.setBound (timely : o.Timely now) (n : Option Nat) {a : Admission K V} (mem : a ∈ o.admissions)
    (live : a.expired o.lifetime now = false) (gone : a ∉ (o.setBound n).2.admissions) :
    o.Outbid (o.setBound n).2 now [] a := by
  obtain ⟨l, holds, sorted⟩ := timely
  obtain ⟨_, after⟩ := setBoundSpelled holds n
  rw [admissionsShown holds] at mem
  rw [← lifetimeShown holds] at live
  obtain ⟨front, rest, split⟩ := List.append_of_mem mem
  -- The entries behind a live one are live, and only such are kept when it goes.
  have newer := (Line.fitOutbid (l := { l with bound := n }) split (admissionsShown after ▸ gone)).2
  have behind : ∀ b ∈ rest, b.expired l.lifetime now = false := by
    intro b also
    cases late : b.expired l.lifetime now with
    | false => rfl
    | true =>
      have ordered := (List.pairwise_append.mp (split ▸ sorted.sorted)).2.1
      have earlier := List.rel_of_pairwise_cons ordered also
      exact (Line.expiredEarlier earlier l.lifetime late).symm.trans live
  have clean : (Line.fit { l with bound := n }).2.Clean now := fun b kept => behind b (newer.subset kept)
  exact outbidFit holds after clean split split (List.sublist_append_left rest []) gone

end Overflow

theorem Cache.Shows.offersTimely [BEq K] [EquivBEq K] [Identity K] {c : Cache K V} {p : Plain K V} (shows : c.Shows p)
    {now : Nat} (timely : c.overflow.Timely now) (filter : Filter K V) (call : Call K V) :
    ∀ offer ∈ c.offers filter now call, offer.2.Timely now := by
  cases reduces : call.reduces with
  | false => exact (shows.stepLeads filter now reduces).timely timely
  | true =>
    cases call with
    | setSoftSize | purge | clear => exact fun _ mem => absurd mem List.not_mem_nil
    | _ => exact Bool.noConfusion reduces

namespace Plain
variable [BEq K] {p : Plain K V} {filter : Filter K V} {now : Nat} {e : K × V}

theorem withdrawTidy (timely : p.line.Timely now) (opened : p.line.bound ≠ some 0) (k : K) :
    (p.withdraw now k).plain.line.Timely now ∧ (p.withdraw now k).plain.line.bound ≠ some 0 := by
  rw [(p.withdrawKeeps now k).2.2]
  exact ⟨timely.fewer List.filter_sublist rfl, opened⟩

/- Each operation, if an entry that the filter lets through is evicted meanwhile. -/
section tidy
variable (timely : p.line.Timely now) (opened : p.line.bound ≠ some 0) (accepted : filter e.1 e.2 = true)
include timely opened accepted

theorem settleTidy (mem : e ∈ victims (p.settle filter now).events) :
    (p.settle filter now).plain.line.Clean now := by
  rw [settleVictims] at mem
  exact timely.receiveClean opened mem accepted

theorem fetchTidy {k : K} (mem : e ∈ victims (p.fetch filter now k).events) :
    (p.fetch filter now k).plain.line.Clean now := by
  have quiet := p.withdrawVictims now k
  obtain ⟨taken, still⟩ := withdrawTidy timely opened k
  unfold fetch at mem ⊢
  cases found : p.shelf.find? k with
  | some v =>
    rw [found] at mem
    exact absurd mem List.not_mem_nil
  | none =>
    rw [found] at mem
    dsimp only at mem ⊢
    cases answer : (p.withdraw now k).answer with
    | none =>
      simp only [answer, quiet, List.not_mem_nil] at mem
    | some v =>
      simp only [answer, victimsAppend, quiet, List.nil_append] at mem
      exact settleTidy (p := (((p.withdraw now k).plain.count .hit 1).count .promotion 1).enter k v) taken still
        accepted mem

theorem storeTidy {k : K} {v : V} (mem : e ∈ victims (p.store filter now k v).events) :
    (p.store filter now k v).plain.line.Clean now := by
  have quiet := p.withdrawVictims now k
  obtain ⟨taken, still⟩ := withdrawTidy timely opened k
  unfold store at mem ⊢
  cases found : p.shelf.find? k with
  | some old =>
    rw [found] at mem
    exact absurd mem List.not_mem_nil
  | none =>
    rw [found] at mem
    simp only [victimsAppend, quiet, List.nil_append] at mem
    exact settleTidy (p := ((p.withdraw now k).plain.enter k v).count .insert 1) taken still accepted mem

end tidy

theorem storeBound (p : Plain K V) (k : K) (v : V) :
    (p.store filter now k v).plain.line.bound = p.line.bound := by
  have taken := congrArg Line.bound (p.withdrawKeeps now k).2.2
  unfold store
  cases p.shelf.find? k with
  | some old => rfl
  | none => exact (Line.receiveKeeps filter now _ (p.withdraw now k).plain.line).1.trans taken

theorem storeAllTidy {entries : List (K × V)} (timely : p.line.Timely now) (opened : p.line.bound ≠ some 0)
    (accepted : filter e.1 e.2 = true) (mem : e ∈ victims (p.storeAll filter now entries).events) :
    (p.storeAll filter now entries).plain.line.Clean now := by
  induction entries generalizing p with
  | nil => exact absurd mem List.not_mem_nil
  | cons d rest ih =>
    have stored : (p.store filter now d.1 d.2).plain.line.Timely now := timely.changes (changesStore .same d.1 d.2)
    have still : (p.store filter now d.1 d.2).plain.line.bound ≠ some 0 := p.storeBound d.1 d.2 ▸ opened
    unfold storeAll at mem
    rw [victimsAppend] at mem
    rcases List.mem_append.mp mem with first | later
    · exact (storeTidy timely opened accepted first).changes stored (changesStoreAll .same rest)
    · exact ih stored still later

theorem releaseTidy {k : K} (timely : p.line.Timely now) (opened : p.line.bound ≠ some 0)
    (accepted : filter e.1 e.2 = true) (mem : e ∈ victims (p.release filter now k).events) :
    (p.release filter now k).plain.line.Clean now := by
  unfold release at mem ⊢
  cases found : p.shelf.find? k with
  | none =>
    rw [found] at mem
    exact absurd mem List.not_mem_nil
  | some v =>
    rw [found] at mem
    exact settleTidy (p := { p with shelf := p.shelf.unpin k, pins := without id p.pins k }) timely opened accepted
      mem

variable [Identity K]

omit [BEq K] in
theorem givenTidy {op : KeyedOp} {keys : List K} {turn : Turn K V (Reply K V)}
    (mem : e ∈ victims (p.given op keys turn).events)
    (tidy : e ∈ victims turn.events → turn.plain.line.Clean now) :
    (p.given op keys turn).plain.line.Clean now := by
  unfold given at mem ⊢
  split at mem
  · rename_i valid
    rw [if_pos valid]
    exact tidy mem
  · exact absurd mem List.not_mem_nil

theorem stepTidy (timely : p.line.Timely now) (opened : p.line.bound ≠ some 0) (accepted : filter e.1 e.2 = true)
    (call : Call K V) (mem : e ∈ victims (p.step filter now call).events) :
    (p.step filter now call).plain.line.Clean now := by
  cases call with
  | get k => exact givenTidy mem (fetchTidy timely opened accepted)
  | put k v => exact givenTidy mem (storeTidy timely opened accepted)
  | putAll entries => exact givenTidy mem (storeAllTidy timely opened accepted)
  | unpin k => exact givenTidy mem (releaseTidy timely opened accepted)
  | setCacheSize n =>
    exact settleTidy (p := { p with shelf := { p.shelf with capacity := n } }) timely opened accepted mem
  | remove k =>
    have quiet := (p.discardQuits now k).1
    refine givenTidy mem (fun mem => ?_)
    simp only [quiet, List.not_mem_nil] at mem
  | pin k =>
    have quiet := (p.holdQuits now k).1
    refine givenTidy mem (fun mem => ?_)
    simp only [quiet, List.not_mem_nil] at mem
  | isPinned k | containsKey k | peek k => exact givenTidy mem (fun mem => absurd mem List.not_mem_nil)
  | setSoftSize n =>
    have lost := victimsReclaimed (V := V) (Line.fit { p.line with bound := n }).1
    exact absurd (lost ▸ mem) List.not_mem_nil
  | purge =>
    have lost := victimsReclaimed (V := V) (p.line.purge now).1
    exact absurd (lost ▸ mem) List.not_mem_nil
  | _ => exact absurd mem List.not_mem_nil

end Plain
namespace Session
variable [BEq K] [Identity K]

/-- What an admission to the overflow tier leaves of it, at every offer a call makes and once the call is done;
and what a bound turns away. The offers listed for a call are the steps by which it changes the tier. -/
structure Sweeps (filter : Filter K V) (s : Session K V) : Prop where
  offered : ∀ call, ∀ offer ∈ s.cache.offers filter s.now call, ∀ v displaced left,
    offer.2.accept s.now offer.1 v = (.admitted displaced, left) → offer.2.Admits s.now offer.1 v displaced left
  led : ∀ call, Call.reduces call = false → s.cache.overflow.Leads filter s.now (s.cache.offers filter s.now call)
    (s.after filter call).cache.overflow
  purged : ∀ call k v, Event.evicted k v ∈ s.events filter call → filter k v = true →
    s.cache.softSize ≠ some 0 → (s.after filter call).answer filter .purge = .count 0
  resized : ∀ n, ∀ a ∈ s.cache.overflow.admissions, a.expired s.cache.overflow.lifetime s.now = false →
    a ∉ (s.after filter (.setSoftSize n)).cache.overflow.admissions →
    s.cache.overflow.Outbid (s.after filter (.setSoftSize n)).cache.overflow s.now [] a

variable [EquivBEq K] {s : Session K V} {p : Plain K V}

theorem Tracks.sweeps (tracks : s.Tracks p) (timely : p.line.Timely s.now) (filter : Filter K V) :
    s.Sweeps filter := by
  have ordered : s.cache.overflow.Timely s.now := ⟨p.line, Overflow.showsHolds tracks.shows.overflow, timely⟩
  constructor
  · intro call offer mem v displaced left accepted
    exact (tracks.shows.offersTimely ordered filter call offer mem).admits accepted
  · exact fun call other => tracks.shows.stepLeads filter s.now other
  · intro call k v heard accepted enabled
    have opened : p.line.bound ≠ some 0 := Overflow.boundShown tracks.shows.overflow ▸ enabled
    have other : call.purges = false := by
      cases call with
      | purge =>
        obtain ⟨_, _, same⟩ := List.mem_map.mp heard
        cases same
      | _ => rfl
    have evicted : (k, v) ∈ victims (p.step filter s.now call).events :=
      List.mem_filterMap.mpr ⟨_, tracks.events filter other ▸ heard, rfl⟩
    have clean := Plain.stepTidy (e := (k, v)) timely opened accepted call evicted
    have gone := congrArg List.length clean.purge
    exact (tracks.after filter call).answers filter .purge (congrArg Reply.count gone) rfl
  · intro n a mem live gone
    exact ordered.setBound n mem live gone

/- In the tier on its own, offers are made at times that do not decrease; what else is done to it, and when,
does not matter. -/
theorem runCleared (filter : Filter K V) {config : Config} (started : start config = .ok s)
    (moves : List (Move K V)) :
    (∀ bound lifetime (calls : List (Nat × Overflow.Call K V)) now k v displaced left,
      lifetime ≠ some 0 → (Overflow.offerTimes calls ++ [now]).Pairwise (· ≤ ·) →
      ((Overflow.empty bound lifetime).run calls).accept now k v = (.admitted displaced, left) →
      ((Overflow.empty bound lifetime).run calls).Admits now k v displaced left) ∧
    (s.run filter moves).Sweeps filter := by
  obtain ⟨p, tracks, timely⟩ := runReached filter started moves
  refine ⟨?_, tracks.sweeps timely filter⟩
  intro bound lifetime calls now k v displaced left lasting ordered accepted
  exact Overflow.runAdmits bound lasting ordered accepted

/- In the tier, key 1 is taken out and comes again, which leaves a stale record in front, and 2 has expired
when 3 is offered. In the session, 1 has expired when 2 is evicted. -/
theorem runClearedSmall :
    let config : Config := { cacheSize := some 1, softSize := some 2, reclaimAfter := some 1 }
    let filter : Filter Nat Nat := Filter.all
    let moves : List (Move Nat Nat) := [.call (.put 1 10), .call (.put 2 20), .wait 1000000]
    let s : Session Nat Nat := ⟨0, .empty false (some 1) (some 2) (some 1000000)⟩
    let calls : List (Nat × Overflow.Call Nat Nat) :=
      [(0, .accept 1 10), (2, .accept 2 20), (30, .withdraw 1), (5, .accept 1 11)]
    let tier : Overflow Nat Nat := (Overflow.empty (some 2) (some 10)).run calls
    (start config = .ok s ∧ (Overflow.offerTimes calls ++ [13]).Pairwise (· ≤ ·) ∧
      (tier.accept 13 3 30).1 = .admitted [2] ∧
      Event.evicted 2 20 ∈ (s.run filter moves).events filter (.put 3 30)) ∧
    tier.Admits 13 3 30 [2] (tier.accept 13 3 30).2 ∧ (s.run filter moves).Sweeps filter ∧
    ((s.run filter moves).after filter (.put 3 30)).answer filter .purge = .count 0 := by
  intro config filter moves s calls tier
  have started : start config = .ok s := rfl
  have ordered : (Overflow.offerTimes calls ++ [13]).Pairwise (· ≤ ·) := by decide
  have receipt : (tier.accept 13 3 30).1 = .admitted [2] := by decide
  have evicted : Event.evicted 2 20 ∈ (s.run filter moves).events filter (.put 3 30) := by decide
  have enabled : (s.run filter moves).cache.softSize ≠ some 0 := by decide
  obtain ⟨admits, sweeps⟩ := runCleared filter started moves
  refine ⟨⟨started, ordered, receipt, evicted⟩, ?_, sweeps, sweeps.purged _ 2 20 evicted rfl enabled⟩
  exact admits (some 2) (some 10) calls 13 3 30 [2] _ (by decide) ordered (Prod.ext receipt rfl)

end Session
end TieredCache
