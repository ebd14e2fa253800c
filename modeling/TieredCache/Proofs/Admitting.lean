import TieredCache.Proofs.LineRuns
import TieredCache.Proofs.Timely

/-! What an admission leaves of the overflow tier. A sweep stops at the first live record it meets. That is
enough while offers are made at times that never go back: however many records are stale, and however often
a key was taken out and came again, the current ones stand in order of time. So nothing that has expired is
left behind, and a live entry goes only to make room for as many newer ones as the tier may hold. -/
namespace TieredCache
open Keyed (Apart find without copies)
variable {K V : Type}

namespace Line
variable {l m : Line K V} {now : Nat}

/-- Nothing that has expired is waiting. -/
def Clean (l : Line K V) (now : Nat) : Prop := ∀ a ∈ l.waiting, a.expired l.lifetime now = false

theorem Clean.fewer (clean : l.Clean now) (sub : m.waiting.Sublist l.waiting) (lifetime : m.lifetime = l.lifetime) :
    m.Clean now := by
  intro a mem
  rw [lifetime]
  exact clean a (sub.subset mem)

theorem Clean.live (clean : l.Clean now) : l.live now = l.waiting := by
  refine List.filter_eq_self.mpr (fun a mem => ?_)
  simp [isLive, clean a mem]

theorem Clean.purge (clean : l.Clean now) : (l.purge now).1 = [] := by
  have none : l.waiting.filter (fun a => a.expired l.lifetime now) = [] := by
    simpa using fun a mem => clean a mem
  unfold Line.purge
  rw [none]
  rfl

theorem Timely.until {latest : Nat} (timely : l.Timely latest) (later : latest ≤ now) : l.Timely now := by
  obtain ⟨time, rfl⟩ := Nat.exists_eq_add_of_le later
  exact timely.later time

theorem Timely.joinedClean (timely : l.Timely now) {kept : List (Admission K V)} (sub : kept.Sublist (l.live now))
    (k : K) (v : V) : Clean { l with waiting := kept ++ [⟨k, v, now⟩] } now := by
  intro a mem
  rcases List.mem_append.mp mem with waited | alone
  · have live := (List.mem_filter.mp (sub.subset waited)).2
    simpa [isLive] using live
  · rw [List.mem_singleton.mp alone]
    exact timely.fresh k v

/- Who is not kept by the fitting stood before all that are, and these are as many as fit. -/
theorem fitOutbid {front rest : List (Admission K V)} {a : Admission K V} (split : l.waiting = front ++ a :: rest)
    (gone : a ∉ l.fit.2.waiting) :
    l.bound = some l.fit.2.waiting.length ∧ l.fit.2.waiting.Sublist rest := by
  have past : front.length < l.excess := by
    by_contra short
    refine gone ?_
    show a ∈ l.waiting.drop l.excess
    rw [split, List.drop_append_of_le_length (Nat.le_of_not_lt short)]
    exact List.mem_append_right _ List.mem_cons_self
  have kept : l.fit.2.waiting = rest.drop (l.excess - (front.length + 1)) := by
    have first : (front ++ [a]).length ≤ l.excess := by
      rw [List.length_append, List.length_singleton]
      exact past
    calc l.waiting.drop l.excess
      _ = ((front ++ [a]) ++ rest).drop l.excess := by rw [split]; simp
      _ = (front ++ [a]).drop l.excess ++ rest.drop (l.excess - (front ++ [a]).length) := List.drop_append
      _ = rest.drop (l.excess - (front.length + 1)) := by
        rw [List.drop_of_length_le first, List.length_append, List.length_singleton, List.nil_append]
  refine ⟨?_, kept ▸ List.drop_sublist _ rest⟩
  unfold excess at past
  unfold fit excess
  cases bounded : l.bound with
  | none => simp [bounded] at past
  | some most =>
    simp only [bounded] at past ⊢
    rw [List.length_drop]
    congr 1
    omega

variable [BEq K]

/-- The line once a key has joined it: those that are live, but for the key's own. -/
def joining (l : Line K V) (now : Nat) (k : K) (v : V) : Line K V :=
  { l with waiting := without Admission.key (l.live now) k ++ [⟨k, v, now⟩] }

theorem Timely.joining (timely : l.Timely now) (k : K) (v : V) : (l.joining now k v).Timely now := by
  let others : Line K V := { l with waiting := without Admission.key (l.live now) k }
  have sub : others.waiting.Sublist l.waiting := List.filter_sublist.trans List.filter_sublist
  exact Timely.joined (l := others) (timely.fewer sub rfl) k v

theorem Timely.joiningClean (timely : l.Timely now) (k : K) (v : V) : (l.joining now k v).Clean now :=
  timely.joinedClean List.filter_sublist k v

theorem Timely.accepts (timely : l.Timely now) (opened : l.bound ≠ some 0) (k : K) (v : V) :
    l.accept now k v =
      (.admitted ((l.waiting.filter (fun a => a.expired l.lifetime now)).map Admission.key ++
        (l.joining now k v).fit.1), (l.joining now k v).fit.2) := by
  unfold accept
  rw [if_neg opened, timely.parted.1, timely.parted.2]
  rfl

theorem Timely.accept (timely : l.Timely now) (k : K) (v : V) : (l.accept now k v).2.Timely now := by
  by_cases opened : l.bound = some 0
  · unfold Line.accept
    rw [if_pos opened]
    exact timely
  · rw [timely.accepts opened]
    exact (timely.joining k v).fewer (List.drop_sublist _ _) rfl

/- The newest is not among those that the bound turns away, unless it turns away all. -/
theorem joiningDropped (l : Line K V) (now : Nat) (opened : l.bound ≠ some 0) (k : K) (v : V) :
    ∃ gone : List (Admission K V), gone.Sublist (l.live now) ∧
      (l.joining now k v).fit.1 = gone.map Admission.key := by
  let others := without Admission.key (l.live now) k
  have few : (l.joining now k v).excess ≤ others.length := by
    unfold excess Line.joining
    cases bounded : l.bound with
    | none => exact Nat.zero_le _
    | some most =>
      have some : most ≠ 0 := fun zero => opened (bounded.trans (congrArg Option.some zero))
      simp only [List.length_append, List.length_singleton]
      show others.length + 1 - most ≤ others.length
      omega
  refine ⟨others.take (l.joining now k v).excess, (List.take_sublist _ _).trans List.filter_sublist, ?_⟩
  show ((others ++ [Admission.mk k v now]).take (l.joining now k v).excess).map Admission.key = _
  rw [List.take_append_of_le_length few]

variable [EquivBEq K]

theorem displacedOnce (opened : l.bound ≠ some 0) (apart : Apart Admission.key l.waiting) {a : Admission K V}
    (waits : a ∈ l.waiting) {j : K} (at_j : (a.key == j) = true) (expired : a.expired l.lifetime now = true)
    (k : K) (v : V) :
    copies id ((l.waiting.filter (fun a => a.expired l.lifetime now)).map Admission.key ++
      (l.joining now k v).fit.1) j = 1 := by
  have swept : copies Admission.key (l.waiting.filter (fun a => a.expired l.lifetime now)) j = 1 := by
    have mem : a ∈ l.waiting.filter (fun a => a.expired l.lifetime now) := List.mem_filter.mpr ⟨waits, expired⟩
    have some := Keyed.findOf (Keyed.apartSublist apart List.filter_sublist) mem at_j
    rw [Keyed.apartCount (Keyed.apartSublist apart List.filter_sublist), some]
    rfl
  -- What the bound turned away was live, and so had another key.
  obtain ⟨gone, sub, fitted⟩ := l.joiningDropped now opened k v
  have others : copies Admission.key gone j = 0 := by
    refine Keyed.copiesNone.mpr (Keyed.findNone.mpr (fun b mem => ?_))
    obtain ⟨waiting, alive⟩ := List.mem_filter.mp (sub.subset mem)
    cases at_b : b.key == j with
    | false => rfl
    | true =>
      have one := (Keyed.findOf apart waits at_j).symm.trans (Keyed.findOf apart waiting at_b)
      cases Option.some.inj one
      simp [isLive, expired] at alive
  rw [fitted, Keyed.copiesAppend, Keyed.copiesKeys, Keyed.copiesKeys, swept, others]

omit [EquivBEq K] in
theorem joiningSplit {front rest : List (Admission K V)} {a : Admission K V} {k : K}
    (split : l.waiting = front ++ a :: rest) (live : a.expired l.lifetime now = false)
    (other : (a.key == k) = false) (v : V) :
    ∃ before : List (Admission K V), (l.joining now k v).waiting =
      before ++ a :: (without Admission.key (rest.filter (l.isLive now)) k ++ [Admission.mk k v now]) := by
  refine ⟨without Admission.key (front.filter (l.isLive now)) k, ?_⟩
  have kept : l.isLive now a = true := by simp [isLive, live]
  unfold Line.joining Line.live
  rw [split, List.filter_append, List.filter_cons_of_pos kept, Keyed.withoutAppend, Keyed.withoutCons, other]
  simp

end Line

namespace Overflow

def offered : Nat × Call K V → Option Nat
  | (now, .accept _ _) => some now
  | _ => none

/-- The times at which something was offered. -/
def offerTimes (calls : List (Nat × Call K V)) : List Nat := calls.filterMap offered

end Overflow

namespace Line
variable [BEq K] {l : Line K V} {latest now : Nat}

theorem Timely.stepOther (timely : l.Timely latest) {call : Overflow.Call K V}
    (other : Overflow.offered (now, call) = none) : (l.step now call).2.Timely latest := by
  cases call with
  | accept k v => cases other
  | withdraw k =>
    have form := congrArg Prod.snd (l.withdrawForm now k)
    show (l.withdraw now k).2.Timely latest
    rw [form]
    exact timely.fewer List.filter_sublist rfl
  | dropExpired => exact timely.fewer List.filter_sublist rfl
  | setBound n => exact timely.fewer (List.drop_sublist _ _) rfl
  | clear => exact timely.fewer (List.nil_sublist _) rfl
  | lookup k | contains k | enabled | bound => exact timely

theorem Timely.run (timely : l.Timely latest) {calls : List (Nat × Overflow.Call K V)}
    (ordered : (latest :: (Overflow.offerTimes calls ++ [now])).Pairwise (· ≤ ·)) : (l.run calls).Timely now := by
  induction calls generalizing l latest with
  | nil => exact timely.until (List.rel_of_pairwise_cons ordered List.mem_cons_self)
  | cons call rest ih =>
    obtain ⟨time, call⟩ := call
    cases offer : Overflow.offered (time, call) with
    | none =>
      have same : Overflow.offerTimes ((time, call) :: rest) = Overflow.offerTimes rest :=
        List.filterMap_cons_none offer
      rw [same] at ordered
      exact ih (timely.stepOther offer) ordered
    | some at_time =>
      have first : Overflow.offerTimes ((time, call) :: rest) = at_time :: Overflow.offerTimes rest :=
        List.filterMap_cons_some offer
      rw [first] at ordered
      cases call with
      | accept k v =>
        cases offer
        have later := List.rel_of_pairwise_cons ordered List.mem_cons_self
        exact ih ((timely.until later).accept k v) ordered.of_cons
      | _ => cases offer

end Line

namespace Overflow
variable [BEq K]

/-- An admission is gone only because the tier holds as many as it may, all of them live and newer. -/
structure Outbid (o left : Overflow K V) (now : Nat) (latest : List (Admission K V)) (a : Admission K V) :
    Prop where
  full : left.bound = some left.admissions.length
  live : ∀ b ∈ left.admissions, b.expired left.lifetime now = false
  newer : ∃ front rest, o.admissions = front ++ a :: rest ∧ left.admissions.Sublist (rest ++ latest)

/-- What an admission leaves of a tier. -/
structure Admits (o : Overflow K V) (now : Nat) (k : K) (v : V) (displaced : List K) (left : Overflow K V) :
    Prop where
  live : ∀ j h, left.held.find? j = some h → h.expired left.lifetime now = false
  counted : left.liveSize now = left.held.size
  purged : (left.dropExpired now).1 = []
  dropped : ∀ j h, o.held.find? j = some h → h.expired o.lifetime now = true →
    left.held.find? j ≠ some h ∧ copies id displaced j = 1
  crowded : ∀ a ∈ o.admissions, a.expired o.lifetime now = false → (a.key == k) = false →
    a ∉ left.admissions → o.Outbid left now [⟨k, v, now⟩] a

variable [EquivBEq K] {o left : Overflow K V} {l : Line K V} {now : Nat}

theorem heldShown (holds : o.Holds l) {j : K} {h : Handle V} (held : o.held.find? j = some h) (now : Nat) :
    ∃ a ∈ l.waiting, (a.key == j) = true ∧ a.expired l.lifetime now = h.expired o.lifetime now := by
  have found := findShown holds j
  rw [held] at found
  obtain ⟨a, at_j, same⟩ := Option.map_eq_some_iff.mp found.symm
  obtain ⟨_, time⟩ := Prod.mk.inj same
  obtain ⟨waits, same_key⟩ := Keyed.findMem at_j
  refine ⟨a, waits, same_key, ?_⟩
  unfold Admission.expired Handle.expired
  rw [lifetimeShown holds]
  cases o.lifetime <;> simp [time]

theorem purgedClean (holds : o.Holds l) (clean : l.Clean now) : (o.dropExpired now).1 = [] := by
  obtain ⟨gone, _, dropped, purged, _⟩ := purgeSpelled holds now
  rw [clean.purge] at purged
  rw [List.map_eq_nil_iff.mp purged.symm] at dropped
  exact dropped.eq_nil

theorem outbidFit (holds : o.Holds l) {fitted : Line K V} (after : left.Holds fitted.fit.2)
    (clean : fitted.fit.2.Clean now) {front rest before latest : List (Admission K V)} {a : Admission K V}
    (split : l.waiting = front ++ a :: rest) {behind : List (Admission K V)}
    (joined : fitted.waiting = before ++ a :: behind) (sub : behind.Sublist (rest ++ latest))
    (gone : a ∉ left.admissions) : o.Outbid left now latest a := by
  have shown := admissionsShown after
  rw [shown] at gone
  obtain ⟨full, newer⟩ := Line.fitOutbid joined gone
  refine ⟨?_, ?_, front, rest, (admissionsShown holds).trans split, ?_⟩
  · rw [shown, ← boundShown after]
    exact full
  · rw [shown, ← lifetimeShown after]
    exact clean
  · rw [shown]
    exact newer.trans sub

theorem admitsTimely (holds : o.Holds l) (timely : l.Timely now) {k : K} {v : V} {displaced : List K}
    (accepted : o.accept now k v = (.admitted displaced, left)) : o.Admits now k v displaced left := by
  obtain ⟨receipt, after⟩ := acceptHolds holds now k v
  rw [accepted] at receipt after
  have opened : l.bound ≠ some 0 := by
    intro shut
    unfold Line.accept at receipt
    rw [if_pos shut] at receipt
    cases receipt
  rw [timely.accepts opened] at receipt after
  have clean : (l.joining now k v).fit.2.Clean now :=
    (timely.joiningClean k v).fewer (List.drop_sublist _ _) rfl
  have live : ∀ j h, left.held.find? j = some h → h.expired left.lifetime now = false := by
    intro j h held
    obtain ⟨a, waits, _, same⟩ := heldShown after held now
    exact same.symm.trans (clean a waits)
  refine ⟨live, ?counted, purgedClean after clean, ?dropped, ?crowded⟩
  case counted => rw [liveSizeShown after, heldSize after, clean.live]
  case dropped =>
    intro j h held late
    refine ⟨fun still => ?_, ?_⟩
    · have kept := live j h still
      have lifetime : left.lifetime = o.lifetime := by
        rw [← lifetimeShown after, ← lifetimeShown holds]
        rfl
      rw [lifetime, late] at kept
      exact Bool.noConfusion kept
    · obtain ⟨a, waits, at_j, same⟩ := heldShown holds held now
      rw [Receipt.admitted.inj receipt]
      exact Line.displacedOnce opened (waitingApart holds) waits at_j (same.trans late) k v
  case crowded =>
    intro a mem live other gone
    rw [admissionsShown holds] at mem
    rw [← lifetimeShown holds] at live
    obtain ⟨front, rest, split⟩ := List.append_of_mem mem
    obtain ⟨before, joined⟩ := Line.joiningSplit split live other v
    have sub : (without Admission.key (rest.filter (l.isLive now)) k).Sublist rest :=
      List.filter_sublist.trans List.filter_sublist
    exact outbidFit holds after clean split joined (sub.append (List.Sublist.refl _)) gone

theorem runAdmits (bound : Option Nat) {lifetime : Option Nat} (lasting : lifetime ≠ some 0)
    {calls : List (Nat × Call K V)} (ordered : (offerTimes calls ++ [now]).Pairwise (· ≤ ·)) {k : K} {v : V}
    {displaced : List K} (accepted : ((empty bound lifetime).run calls).accept now k v = (.admitted displaced, left)) :
    ((empty bound lifetime).run calls).Admits now k v displaced left := by
  have bare : (Line.bare bound lifetime : Line K V).Timely 0 := ⟨.nil, nofun, lasting⟩
  have from_zero := List.pairwise_cons.mpr ⟨fun _ _ => Nat.zero_le _, ordered⟩
  obtain ⟨_, holds⟩ := runHolds (emptyHolds bound lifetime) calls
  exact admitsTimely holds (bare.run from_zero) accepted

end Overflow
end TieredCache
