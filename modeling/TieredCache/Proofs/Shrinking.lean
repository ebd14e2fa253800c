import TieredCache.Proofs.LineRuns
import TieredCache.Proofs.ShelfCalls
import TieredCache.Proofs.Swept

/-! Either tier made smaller in two steps or in one. What leaves it over both steps is what leaves it at once,
in the same order, and the same is left: of the primary tier all of it, of the overflow tier all but stale
records, which either way may be cleared away at another moment. -/
namespace TieredCache
open Keyed (Apart find without)
variable {E K V : Type}

/-- The second size is not above the first; none is above every size. -/
def Shrinks (m n : Option Nat) : Prop := ∀ most, m = some most → ∃ few, n = some few ∧ few ≤ most

theorem shrinksSame (n : Option Nat) : Shrinks n n := fun most same => ⟨most, same, Nat.le_refl most⟩

/-- How many of those held are too many. -/
def surfeit (size : Option Nat) (held : Nat) : Nat :=
  match size with
  | some most => held - most
  | none => 0

theorem surfeitHeld (size : Option Nat) (held : Nat) : surfeit size held ≤ held := by
  cases size with
  | none => exact Nat.zero_le held
  | some most => exact Nat.sub_le held most

theorem surfeitTwice {m n : Option Nat} (sizes : Shrinks m n) (held : Nat) :
    surfeit m held + surfeit n (held - surfeit m held) = surfeit n held := by
  unfold surfeit
  cases m with
  | none => simp
  | some most =>
    obtain ⟨few, rfl, le⟩ := sizes most rfl
    dsimp only
    omega

namespace Among
variable {extra : E → Prop} {xs ys : List E} {keep : E → Bool}

theorem filter (others : ∀ e, keep e = false → extra e) (xs : List E) : Among extra (xs.filter keep) xs := by
  induction xs with
  | nil => exact .nil
  | cons e rest ih =>
    cases kept : keep e with
    | true =>
      rw [List.filter_cons_of_pos kept]
      exact .same e ih
    | false =>
      rw [List.filter_cons_of_neg (by simp [kept])]
      exact .put (others e kept) ih

theorem filtered (among : Among extra xs ys) (out : ∀ e, extra e → keep e = false) :
    xs.filter keep = ys.filter keep := by
  induction among with
  | nil => rfl
  | same e rest ih => rw [List.filter_cons, List.filter_cons, ih]
  | put added rest ih => rw [ih, List.filter_cons_of_neg (by simp [out _ added])]

end Among

namespace Recency
variable [BEq K] {r : Recency K V} {s : Shelf K V}

theorem evictCapacity (r : Recency K V) (size : Option Nat) (times : Nat) :
    (r.setCapacity size).evict times = ((r.evict times).1, (r.evict times).2.setCapacity size) := by
  have oldest (r : Recency K V) :
      (r.setCapacity size).evictOldest = ((r.evictOldest).1, (r.evictOldest).2.setCapacity size) := by
    unfold evictOldest setCapacity
    dsimp only
    split
    · rfl
    · split <;> rfl
  induction times generalizing r with
  | zero => rfl
  | succ times ih =>
    unfold evict
    rw [oldest]
    obtain ⟨first, after⟩ := r.evictOldest
    cases first with
    | none => rfl
    | some e =>
      dsimp only
      rw [ih]

theorem evictNone (none : (r.evictOldest).1 = none) (times : Nat) : r.evict times = ([], r) := by
  have same : r.evictOldest = (Option.none, r) := by
    unfold evictOldest at none ⊢
    split at none
    · rfl
    · split at none
      · rfl
      · cases none
  cases times with
  | zero => rfl
  | succ times =>
    unfold evict
    rw [same]

theorem evictAdd (r : Recency K V) (first second : Nat) :
    r.evict (first + second) =
      ((r.evict first).1 ++ ((r.evict first).2.evict second).1, ((r.evict first).2.evict second).2) := by
  induction first generalizing r with
  | zero => simp [evict]
  | succ first ih =>
    rw [Nat.succ_add]
    cases oldest : r.evictOldest with
    | mk victim after =>
      cases victim with
      | none =>
        have nothing := r.evictNone (congrArg Prod.fst oldest)
        rw [nothing, nothing, nothing]
        rfl
      | some e =>
        rw [evictSome oldest, evictSome oldest, ih after]
        rfl

variable [EquivBEq K]

theorem evictUnpinned (shows : r.Shows s) {times : Nat} (enough : times ≤ r.unpinned) :
    (r.evict times).2.unpinned = r.unpinned - times := by
  obtain ⟨chain, aside, layout, shown⟩ := shows
  clear shown
  induction times generalizing r chain with
  | zero => rfl
  | succ times ih =>
    have count := layout.count
    rcases List.eq_nil_or_concat chain with rfl | ⟨rest, c, rfl⟩
    · rw [List.length_nil] at count
      omega
    · rw [List.concat_eq_append] at layout
      obtain ⟨victim, left, _⟩ := evictOldestLast layout
      have evicted : r.evictOldest = (some c.entry, (r.evictOldest).2) := Prod.ext victim rfl
      have fewer := (evictOldestLeft evicted).2
      rw [evictSome evicted, ih (by omega) rest left, fewer]
      omega

theorem shedTwice (shows : r.Shows s) {m n : Option Nat} (sizes : Shrinks m n) :
    let first := (r.setCapacity m).shed
    let second := (first.2.setCapacity n).shed
    (first.1 ++ second.1, second.2) = (r.setCapacity n).shed := by
  intro first second
  have first_form : first = ((r.evict (surfeit m r.unpinned)).1, (r.evict (surfeit m r.unpinned)).2.setCapacity m) :=
    r.evictCapacity m _
  have left : first.2.unpinned = r.unpinned - surfeit m r.unpinned := by
    rw [first_form]
    exact evictUnpinned shows (surfeitHeld m r.unpinned)
  have second_form : second = (first.2.setCapacity n).evict (surfeit n (r.unpinned - surfeit m r.unpinned)) := by
    rw [← left]
    rfl
  have once : (r.setCapacity n).shed = (r.setCapacity n).evict (surfeit n r.unpinned) := rfl
  rw [once, second_form, ← surfeitTwice sizes r.unpinned, evictCapacity, evictCapacity, evictAdd, first_form,
    evictCapacity]
  rfl

end Recency

namespace Overflow
variable [BEq K]

theorem receiveAppend (filter : Filter K V) (now : Nat) (first second : List (K × V)) (o : Overflow K V) :
    o.receive filter now (first ++ second) =
      ((o.receive filter now first).1 ++ ((o.receive filter now first).2.receive filter now second).1,
        ((o.receive filter now first).2.receive filter now second).2) := by
  induction first generalizing o with
  | nil => rfl
  | cons e rest ih =>
    obtain ⟨k, v⟩ := e
    rw [List.cons_append]
    cases accepted : filter k v with
    | true => simp only [receive, accepted, if_true, ih, List.append_assoc]
    | false => simp only [receive, accepted, Bool.false_eq_true, if_false, ih, List.cons_append]

/-- The same tier but for stale records. -/
structure Agrees (o u : Overflow K V) : Prop where
  held : o.held = u.held
  current : o.queue.filter (isCurrent o.held) = u.queue.filter (isCurrent u.held)
  admissions : o.admissions = u.admissions
  settings : (o.nextGeneration, o.bound, o.lifetime) = (u.nextGeneration, u.bound, u.lifetime)

def trimTo (bound : Option Nat) (queue : List (Record K)) (held : Dict K (Handle V)) :
    List K × List (Record K) × Dict K (Handle V) :=
  match bound with
  | none => ([], queue, held)
  | some limit => trimQueue limit queue held

theorem trimQueueTwice {few most : Nat} (le : few ≤ most) (queue : List (Record K)) (held : Dict K (Handle V)) :
    let first := trimQueue most queue held
    let second := trimQueue few first.2.1 first.2.2
    (first.1 ++ second.1, second.2) = trimQueue few queue held := by
  dsimp only
  induction queue generalizing held with
  | nil => rfl
  | cons r rest ih =>
    by_cases fits : held.size ≤ most
    · rw [trimFits fits]
      rfl
    · have longer : ¬held.size ≤ few := fun short => fits (Nat.le_trans short le)
      rw [trimLong fits, trimLong longer]
      cases current held r with
      | none => exact ih held
      | some h =>
        dsimp only
        rw [← ih (held.erase r.key)]
        rfl

variable [EquivBEq K]

theorem erasedStale {held : Dict K (Handle V)} {r : Record K} (stale : current held r = none) (k : K) :
    current (held.erase k) r = none := by
  rw [Queued.currentErased]
  split
  · rfl
  · exact stale

/- Stale records in the queue make no difference to what a trimming takes off it and leaves held. -/
theorem trimStale {stale : Record K → Prop} {fewer queue : List (Record K)} (among : Among stale fewer queue)
    {held : Dict K (Handle V)} (gone : ∀ r, stale r → current held r = none) (limit : Nat) :
    let one := trimQueue limit fewer held
    let other := trimQueue limit queue held
    one.1 = other.1 ∧ one.2.2 = other.2.2 ∧ Among stale one.2.1 other.2.1 ∧
      ∀ r, stale r → current other.2.2 r = none := by
  dsimp only
  induction among generalizing held with
  | nil => exact ⟨rfl, rfl, .nil, gone⟩
  | same r rest ih =>
    by_cases fits : held.size ≤ limit
    · rw [trimFits fits, trimFits fits]
      exact ⟨rfl, rfl, .same r rest, gone⟩
    · rw [trimLong fits, trimLong fits]
      cases current held r with
      | none => exact ih gone
      | some h =>
        obtain ⟨dropped, same, left, still⟩ := ih (fun e added => erasedStale (gone e added) r.key)
        exact ⟨congrArg (r.key :: ·) dropped, same, left, still⟩
  | @put r fewer queue added rest ih =>
    by_cases fits : held.size ≤ limit
    · rw [trimFits fits, trimFits fits]
      exact ⟨rfl, rfl, .put added rest, gone⟩
    · rw [trimLong (r := r) fits, gone r added]
      exact ih gone

omit [EquivBEq K] in
theorem trimToTwice {m n : Option Nat} (sizes : Shrinks m n) (queue : List (Record K)) (held : Dict K (Handle V)) :
    let first := trimTo m queue held
    let second := trimTo n first.2.1 first.2.2
    (first.1 ++ second.1, second.2) = trimTo n queue held := by
  cases m with
  | none => rfl
  | some most =>
    obtain ⟨few, rfl, le⟩ := sizes most rfl
    exact trimQueueTwice le queue held

theorem trimToStale {stale : Record K → Prop} {fewer queue : List (Record K)} (among : Among stale fewer queue)
    {held : Dict K (Handle V)} (gone : ∀ r, stale r → current held r = none) (n : Option Nat) :
    let one := trimTo n fewer held
    let other := trimTo n queue held
    one.1 = other.1 ∧ one.2.2 = other.2.2 ∧ Among stale one.2.1 other.2.1 ∧
      ∀ r, stale r → current other.2.2 r = none := by
  cases n with
  | none => exact ⟨rfl, rfl, among, gone⟩
  | some limit => exact trimStale among gone limit

omit [EquivBEq K] in
theorem setBoundForm (o : Overflow K V) (n : Option Nat) :
    let trimmed := trimTo n o.queue o.held
    o.setBound n = (trimmed.1, compact { o with bound := n, queue := trimmed.2.1, held := trimmed.2.2 }) := by
  cases n <;> rfl

section agrees
variable {o u w : Overflow K V}

omit [EquivBEq K]

theorem Agrees.symm (agrees : o.Agrees u) : u.Agrees o :=
  ⟨agrees.held.symm, agrees.current.symm, agrees.admissions.symm, agrees.settings.symm⟩

theorem Agrees.trans (first : o.Agrees u) (second : u.Agrees w) : o.Agrees w where
  held := first.held.trans second.held
  current := first.current.trans second.current
  admissions := first.admissions.trans second.admissions
  settings := first.settings.trans second.settings

theorem admissionsCurrent (o : Overflow K V) :
    o.admissions = (o.queue.filter (isCurrent o.held)).filterMap
      (fun r => (current o.held r).map (fun h => ⟨r.key, h.value, h.admitted⟩)) := by
  unfold admissions
  rw [List.filterMap_filter]
  refine List.filterMap_congr (fun r _ => ?_)
  unfold isCurrent
  cases current o.held r <;> rfl

theorem agreesStale {stale : Record K → Prop} (held : o.held = u.held) (among : Among stale o.queue u.queue)
    (gone : ∀ r, stale r → current u.held r = none)
    (settings : (o.nextGeneration, o.bound, o.lifetime) = (u.nextGeneration, u.bound, u.lifetime)) :
    o.Agrees u := by
  have same : o.queue.filter (isCurrent o.held) = u.queue.filter (isCurrent u.held) := by
    rw [held]
    exact among.filtered (fun r out => by simp [isCurrent, gone r out])
  refine ⟨held, same, ?_, settings⟩
  rw [admissionsCurrent, admissionsCurrent, same, held]

theorem compactKeeps (o : Overflow K V) :
    o.compact.held = o.held ∧ Among (fun r => current o.held r = none) o.compact.queue o.queue ∧
    (o.compact.nextGeneration, o.compact.bound, o.compact.lifetime) = (o.nextGeneration, o.bound, o.lifetime) := by
  unfold compact
  split
  · exact ⟨rfl, .self _ _, rfl⟩
  · exact ⟨rfl, .filter (fun r out => by simpa using out) o.queue, rfl⟩

theorem compactAgrees (o : Overflow K V) : o.compact.Agrees o := by
  obtain ⟨held, among, settings⟩ := o.compactKeeps
  exact agreesStale held among (fun _ stale => stale) settings

theorem compactTwice (o : Overflow K V) : o.compact.compact = o.compact := by
  by_cases short : o.queue.length ≤ 2 * o.held.size + 16
  · have same : o.compact = o := if_pos short
    rw [same, same]
  · have filtered : o.compact = { o with queue := o.queue.filter (fun r => (current o.held r).isSome) } :=
      if_neg short
    rw [filtered]
    unfold compact
    split
    · rfl
    · simp

end agrees

theorem setBoundTwice (o : Overflow K V) {m n : Option Nat} (sizes : Shrinks m n) :
    (o.setBound m).1 ++ ((o.setBound m).2.setBound n).1 = (o.setBound n).1 ∧
    ((o.setBound m).2.setBound n).2.Agrees (o.setBound n).2 := by
  let trimmed := trimTo m o.queue o.held
  let first : Overflow K V := { o with bound := m, queue := trimmed.2.1, held := trimmed.2.2 }
  have total := trimToTwice sizes o.queue o.held
  obtain ⟨held, among, settings⟩ := first.compactKeeps
  obtain ⟨dropped, same, left, gone⟩ := trimToStale among (fun _ stale => stale) n
  rw [o.setBoundForm m, o.setBoundForm n]
  show trimmed.1 ++ (first.compact.setBound n).1 = _ ∧ (first.compact.setBound n).2.Agrees _
  rw [first.compact.setBoundForm n, held, ← total]
  obtain ⟨generation, _, lifetime⟩ : first.compact.nextGeneration = o.nextGeneration ∧
      first.compact.bound = m ∧ first.compact.lifetime = o.lifetime := by simpa using settings
  refine ⟨congrArg (trimmed.1 ++ ·) dropped, (compactAgrees _).trans (.trans ?_ (compactAgrees _).symm)⟩
  exact agreesStale same left gone (by simp [generation, lifetime])

theorem setBoundAgain {o : Overflow K V} {l : Line K V} (holds : o.Holds l) (n : Option Nat) :
    (o.setBound n).2.setBound n = ([], (o.setBound n).2) := by
  obtain ⟨_, after⟩ := setBoundSpelled holds n
  have within := Line.fitWithin { l with bound := n }
  let trimmed := trimTo n o.queue o.held
  let left : Overflow K V := { o with bound := n, queue := trimmed.2.1, held := trimmed.2.2 }
  have form : (o.setBound n).2 = left.compact := congrArg Prod.snd (o.setBoundForm n)
  have bound : left.compact.bound = n := by
    rw [← form, ← boundShown after]
    rfl
  have nothing : trimTo n left.compact.queue left.compact.held = ([], left.compact.queue, left.compact.held) := by
    cases n with
    | none => rfl
    | some most =>
      refine trimFits ?_
      rw [← form, heldSize after]
      exact within most rfl
  rw [form, setBoundForm, nothing]
  have same : { left.compact with bound := n } = left.compact := by rw [← bound]
  show ([], compact { left.compact with bound := n }) = _
  rw [same, compactTwice]

end Overflow
end TieredCache
