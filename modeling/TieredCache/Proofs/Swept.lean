import TieredCache.Proofs.Live
import TieredCache.Proofs.Timely

/-! A line swept of what has expired. Lines that are the same when swept receive the same, drop the
same and stay so: each admission, and each fitting to a bound, gets rid of the expired ones before it
touches a live one. What is dropped is the same too, but for keys of expired ones. -/
namespace TieredCache
open Keyed (Apart find without copies)
variable {E F K V A : Type}

/-- The second list is the first one with some extras put in. -/
inductive Among (extra : E → Prop) : List E → List E → Prop where
  | nil : Among extra [] []
  | same (e : E) {xs ys : List E} (rest : Among extra xs ys) : Among extra (e :: xs) (e :: ys)
  | put {e : E} {xs ys : List E} (added : extra e) (rest : Among extra xs ys) : Among extra xs (e :: ys)

/-- Two lists are the same but for extras of either one's own. -/
def SameBut (first second : E → Prop) (xs ys : List E) : Prop :=
  ∃ common, Among first common xs ∧ Among second common ys

namespace Among
variable {extra other : E → Prop} {xs ys zs : List E}

theorem self (extra : E → Prop) (xs : List E) : Among extra xs xs := by
  induction xs with
  | nil => exact .nil
  | cons e rest ih => exact .same e ih

theorem front (among : Among extra xs ys) {gone : List E} (all : ∀ e ∈ gone, extra e) :
    Among extra xs (gone ++ ys) := by
  induction gone with
  | nil => exact among
  | cons e rest ih => exact .put (all e (by simp)) (ih (fun d mem => all d (by simp [mem])))

theorem append {us vs : List E} (before : Among extra xs ys) (after : Among extra us vs) :
    Among extra (xs ++ us) (ys ++ vs) := by
  induction before with
  | nil => exact after
  | same e rest ih => exact .same e ih
  | put added rest ih => exact .put added ih

theorem mono (among : Among extra xs ys) (wider : ∀ e, extra e → other e) : Among other xs ys := by
  induction among with
  | nil => exact .nil
  | same e rest ih => exact .same e ih
  | put added rest ih => exact .put (wider _ added) ih

theorem map {image : F → Prop} (f : E → F) (among : Among extra xs ys)
    (keeps : ∀ e, extra e → image (f e)) : Among image (xs.map f) (ys.map f) := by
  induction among with
  | nil => exact .nil
  | same e rest ih => exact .same (f e) ih
  | put added rest ih => exact .put (keeps _ added) ih

end Among

namespace SameBut
variable {first second : E → Prop} {xs ys us vs : List E}

theorem self (xs : List E) : SameBut first second xs xs := ⟨xs, .self first xs, .self second xs⟩

theorem front {left right : List E} (one : ∀ e ∈ left, first e) (two : ∀ e ∈ right, second e) :
    SameBut first second (left ++ xs) (right ++ xs) :=
  ⟨xs, (Among.self first xs).front one, (Among.self second xs).front two⟩

theorem append (before : SameBut first second xs ys) (after : SameBut first second us vs) :
    SameBut first second (xs ++ us) (ys ++ vs) := by
  obtain ⟨common, left, right⟩ := before
  obtain ⟨more, left', right'⟩ := after
  exact ⟨common ++ more, left.append left', right.append right'⟩

theorem mono {wider other : E → Prop} (same : SameBut first second xs ys)
    (left : ∀ e, first e → wider e) (right : ∀ e, second e → other e) : SameBut wider other xs ys := by
  obtain ⟨common, one, two⟩ := same
  exact ⟨common, one.mono left, two.mono right⟩

end SameBut

namespace Line
variable {l m : Line K V} {now : Nat}

def swept (l : Line K V) (now : Nat) : Line K V := { l with waiting := l.live now }

theorem sweptParts (alike : l.swept now = m.swept now) :
    l.live now = m.live now ∧ l.bound = m.bound ∧ l.lifetime = m.lifetime := Line.mk.inj alike

theorem liveLive (l : Line K V) (now : Nat) : (l.swept now).live now = l.live now := by
  show (l.waiting.filter (l.isLive now)).filter (l.isLive now) = _
  rw [List.filter_filter]
  simp [live]

theorem liveLater (l : Line K V) (now time : Nat) : (l.swept now).live (now + time) = l.live (now + time) := by
  show (l.waiting.filter (l.isLive now)).filter (l.isLive (now + time)) = l.waiting.filter _
  rw [List.filter_filter]
  refine List.filter_congr (fun a _ => ?_)
  cases late : a.expired l.lifetime now with
  | false => simp [isLive, late]
  | true => simp [isLive, Plain.expiredLater a l.lifetime time late]

variable [BEq K]

def late (l : Line K V) (now : Nat) (k : K) : Prop :=
  ∃ a ∈ l.waiting, (a.key == k) = true ∧ a.expired l.lifetime now = true

theorem removeSwept (l : Line K V) (now : Nat) (k : K) : (l.remove k).swept now = (l.swept now).remove k := by
  have waiting : (without Admission.key l.waiting k).filter (l.isLive now) =
      without Admission.key (l.waiting.filter (l.isLive now)) k := by
    unfold without
    rw [List.filter_comm]
  exact congrArg (fun waiting => ({ l with waiting := waiting } : Line K V)) waiting

theorem Changes.past {filter : Filter K V} (timely : l.Timely now) (changes : l.Changes filter now m) :
    m.lifetime = l.lifetime ∧
    ∀ a ∈ m.waiting, a.expired l.lifetime now = true → a ∈ l.waiting := by
  induction changes with
  | same => exact ⟨rfl, fun a mem _ => mem⟩
  | removed k earlier ih => exact ⟨ih.1, fun a mem => ih.2 a (Keyed.withoutMem.mp mem).1⟩
  | @received n victims earlier ih =>
    obtain ⟨lifetime, kept⟩ := ih
    refine ⟨(receiveKeeps filter now victims n).2.1.trans lifetime, fun a mem expired => ?_⟩
    rcases receiveWaits filter now victims n mem with waited | ⟨e, _, rfl⟩
    · exact kept a waited expired
    · rw [timely.fresh] at expired
      exact Bool.noConfusion expired
  | fitted bound earlier ih => exact ⟨ih.1, fun a mem => ih.2 a (List.mem_of_mem_drop mem)⟩
  | purged earlier ih => exact ⟨ih.1, fun a mem => ih.2 a (List.mem_filter.mp mem).1⟩
  | emptied earlier ih => exact ⟨ih.1, fun a mem => absurd mem List.not_mem_nil⟩

theorem Changes.late {filter : Filter K V} (timely : l.Timely now) (changes : l.Changes filter now m)
    (k : K) (late : m.late now k) : l.late now k := by
  obtain ⟨lifetime, kept⟩ := changes.past timely
  obtain ⟨a, mem, at_k, expired⟩ := late
  rw [lifetime] at expired
  exact ⟨a, kept a mem expired, at_k, expired⟩

variable [EquivBEq K]

theorem expiredLate (l : Line K V) (now : Nat) {gone : List (Admission K V)}
    (sub : ∀ a ∈ gone, a ∈ l.waiting.filter (fun a => a.expired l.lifetime now)) :
    ∀ k ∈ gone.map Admission.key, l.late now k := by
  intro k mem
  obtain ⟨a, left, rfl⟩ := List.mem_map.mp mem
  obtain ⟨waits, expired⟩ := List.mem_filter.mp (sub a left)
  exact ⟨a, waits, BEq.refl a.key, expired⟩

theorem offerAlike (alike : l.swept now = m.swept now) (first : l.Timely now) (second : m.Timely now)
    (filter : Filter K V) (k : K) (v : V) :
    (l.offer filter now k v).2.swept now = (m.offer filter now k v).2.swept now ∧
    SameBut (l.late now) (m.late now) (l.offer filter now k v).1 (m.offer filter now k v).1 := by
  obtain ⟨live, bound, lifetime⟩ := sweptParts alike
  have joined : ({ l with waiting := l.live now ++ [⟨k, v, now⟩] } : Line K V) =
      { m with waiting := m.live now ++ [⟨k, v, now⟩] } := by
    rw [live, bound, lifetime]
  unfold offer
  rw [bound]
  split
  · -- Either line loses its expired ones, and then they are one and the same.
    unfold enqueue
    dsimp only
    rw [first.parted.1, first.parted.2, second.parted.1, second.parted.2, joined]
    exact ⟨rfl, SameBut.front (l.expiredLate now (fun _ mem => mem)) (m.expiredLate now (fun _ mem => mem))⟩
  · exact ⟨alike, SameBut.self [k]⟩

theorem receiveAlike (alike : l.swept now = m.swept now) (first : l.Timely now) (second : m.Timely now)
    (filter : Filter K V) (victims : List (K × V)) :
    (l.receive filter now victims).2.swept now = (m.receive filter now victims).2.swept now ∧
    SameBut (l.late now) (m.late now) (l.receive filter now victims).1 (m.receive filter now victims).1 := by
  induction victims generalizing l m with
  | nil => exact ⟨alike, SameBut.self []⟩
  | cons e rest ih =>
    obtain ⟨offered, dropped⟩ := offerAlike alike first second filter e.1 e.2
    obtain ⟨received, others⟩ := ih offered (first.offer filter e.1 e.2) (second.offer filter e.1 e.2)
    have one : l.Changes filter now (l.receive filter now [e]).2 := .received [e] .same
    have two : m.Changes filter now (m.receive filter now [e]).2 := .received [e] .same
    exact ⟨received, dropped.append (others.mono (one.late first) (two.late second))⟩

theorem fitSwept (timely : l.Timely now) :
    (l.fit).2.swept now = ((l.swept now).fit).2 ∧
    Among (l.late now) ((l.swept now).fit).1 (l.fit).1 := by
  let gone := l.waiting.filter (fun a => a.expired l.lifetime now)
  have parted : l.waiting = gone ++ l.live now := by
    have whole : l.waiting.takeWhile (fun a => a.expired l.lifetime now) ++
        l.waiting.dropWhile (fun a => a.expired l.lifetime now) = l.waiting :=
      List.takeWhile_append_dropWhile
    rw [timely.parted.1, timely.parted.2] at whole
    exact whole.symm
  have excess : l.excess - gone.length = (l.swept now).excess := by
    have length := congrArg List.length parted
    rw [List.length_append] at length
    unfold Line.excess swept
    cases l.bound with
    | none => exact Nat.zero_sub _
    | some most =>
      dsimp only
      omega
  have dead : (gone.drop l.excess).filter (l.isLive now) = [] := by
    refine List.filter_eq_nil_iff.mpr (fun a mem => ?_)
    have expired := (List.mem_filter.mp (List.mem_of_mem_drop mem)).2
    simpa [isLive] using expired
  have alive : ((l.live now).drop (l.swept now).excess).filter (l.isLive now) =
      (l.live now).drop (l.swept now).excess := by
    refine List.filter_eq_self.mpr (fun a mem => ?_)
    exact (List.mem_filter.mp (List.mem_of_mem_drop mem)).2
  constructor
  · have waiting : (l.waiting.drop l.excess).filter (l.isLive now) =
        (l.live now).drop (l.swept now).excess := by
      rw [parted, List.drop_append, List.filter_append, dead, excess, alive]
      rfl
    exact congrArg (fun waiting => ({ l with waiting := waiting } : Line K V)) waiting
  · have dropped : (l.fit).1 = (gone.take l.excess).map Admission.key ++ ((l.swept now).fit).1 := by
      unfold fit
      rw [parted, List.take_append, excess, List.map_append]
      rfl
    rw [dropped]
    exact (Among.self _ _).front (l.expiredLate now (fun _ mem => List.mem_of_mem_take mem))

end Line
end TieredCache
