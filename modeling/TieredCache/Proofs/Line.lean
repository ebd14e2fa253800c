import TieredCache.Cache
import TieredCache.Proofs.Queued

/-! The overflow tier as one plain list: what was admitted and when, oldest first. An admission
first drops what has expired off the front and then what does not fit. Keys are not looked for on
admission: the cache never offers one that is waiting. -/
namespace TieredCache
open Keyed (Apart find without)

structure Admission (K V : Type) where
  key : K
  value : V
  time : Nat
  deriving DecidableEq, Repr

namespace Admission
variable {K V : Type}

def entry (a : Admission K V) : K × V := (a.key, a.value)

def expired (a : Admission K V) (lifetime : Option Nat) (now : Nat) : Bool :=
  match lifetime with
  | some span => span ≤ now - a.time
  | none => false

end Admission

structure Line (K V : Type) where
  waiting : List (Admission K V)
  bound : Option Nat
  lifetime : Option Nat
  deriving DecidableEq, Repr

namespace Line
variable {K V : Type}

def isLive (l : Line K V) (now : Nat) (a : Admission K V) : Bool := !a.expired l.lifetime now

def live (l : Line K V) (now : Nat) : List (Admission K V) := l.waiting.filter (l.isLive now)

def excess (l : Line K V) : Nat :=
  match l.bound with
  | some most => l.waiting.length - most
  | none => 0

def fit (l : Line K V) : List K × Line K V :=
  ((l.waiting.take l.excess).map Admission.key, { l with waiting := l.waiting.drop l.excess })

def Within (l : Line K V) : Prop := ∀ most, l.bound = some most → l.waiting.length ≤ most

theorem Within.fit {l : Line K V} (within : l.Within) : l.fit = ([], l) := by
  have none : l.excess = 0 := by
    unfold excess
    cases bounded : l.bound with
    | none => rfl
    | some most => exact Nat.sub_eq_zero_of_le (within most bounded)
  unfold Line.fit
  rw [none]
  rfl

/- What does not fit is what leaves while the line is too long, each time the oldest. -/
theorem fitStep {l : Line K V} {a : Admission K V} {rest : List (Admission K V)} {most : Nat}
    (bounded : l.bound = some most) (split : l.waiting = a :: rest) (long : most < l.waiting.length) :
    l.fit = (a.key :: (fit { l with waiting := rest }).1, (fit { l with waiting := rest }).2) := by
  unfold fit excess
  rw [bounded]
  dsimp only
  have excess : l.waiting.length - most = rest.length - most + 1 := by
    rw [split, List.length_cons] at long ⊢
    omega
  rw [excess, split]
  rfl

def enqueue (l : Line K V) (now : Nat) (k : K) (v : V) : List K × Line K V :=
  let gone := l.waiting.takeWhile (fun a => a.expired l.lifetime now)
  let kept := l.waiting.dropWhile (fun a => a.expired l.lifetime now)
  let joined : Line K V := { l with waiting := kept ++ [⟨k, v, now⟩] }
  (gone.map Admission.key ++ joined.fit.1, joined.fit.2)

def offer (filter : Filter K V) (l : Line K V) (now : Nat) (k : K) (v : V) : List K × Line K V :=
  if filter k v ∧ l.bound ≠ some 0 then l.enqueue now k v else ([k], l)

def receive (filter : Filter K V) (now : Nat) : List (K × V) → Line K V → List K × Line K V
  | [], l => ([], l)
  | e :: rest, l =>
      let first := l.offer filter now e.1 e.2
      let others := receive filter now rest first.2
      (first.1 ++ others.1, others.2)

def purge (l : Line K V) (now : Nat) : List K × Line K V :=
  ((l.waiting.filter (fun a => a.expired l.lifetime now)).map Admission.key,
    { l with waiting := l.live now })

theorem offerWaits (filter : Filter K V) (l : Line K V) (now : Nat) (k : K) (v : V)
    {a : Admission K V} (mem : a ∈ (l.offer filter now k v).2.waiting) :
    a ∈ l.waiting ∨ a = ⟨k, v, now⟩ := by
  unfold Line.offer at mem
  split at mem
  · have joined := List.mem_of_mem_drop mem
    rcases List.mem_append.mp joined with kept | latest
    · exact .inl ((List.dropWhile_sublist _).subset kept)
    · exact .inr (List.mem_singleton.mp latest)
  · exact .inl mem

theorem receiveWaits (filter : Filter K V) (now : Nat) (victims : List (K × V)) (l : Line K V)
    {a : Admission K V} (mem : a ∈ (l.receive filter now victims).2.waiting) :
    a ∈ l.waiting ∨ ∃ e ∈ victims, a = ⟨e.1, e.2, now⟩ := by
  induction victims generalizing l with
  | nil => exact .inl mem
  | cons e rest ih =>
    rcases ih _ mem with waited | ⟨d, also, rfl⟩
    · rcases l.offerWaits filter now e.1 e.2 waited with waited | rfl
      · exact .inl waited
      · exact .inr ⟨e, by simp, rfl⟩
    · exact .inr ⟨d, by simp [also], rfl⟩

theorem fitWithin (l : Line K V) : (l.fit).2.Within := by
  intro most bound
  have capped : l.bound = some most := bound
  unfold fit excess
  rw [capped, List.length_drop]
  dsimp only
  omega

theorem offerWithin (filter : Filter K V) (l : Line K V) (now : Nat) (k : K) (v : V) (within : l.Within) :
    (l.offer filter now k v).2.Within := by
  unfold offer
  split
  · exact fitWithin _
  · exact within

theorem offerKeeps (filter : Filter K V) (l : Line K V) (now : Nat) (k : K) (v : V) :
    (l.offer filter now k v).2.bound = l.bound ∧ (l.offer filter now k v).2.lifetime = l.lifetime := by
  unfold offer
  split <;> exact ⟨rfl, rfl⟩

theorem receiveKeeps (filter : Filter K V) (now : Nat) (victims : List (K × V)) (l : Line K V) :
    (l.receive filter now victims).2.bound = l.bound ∧
    (l.receive filter now victims).2.lifetime = l.lifetime ∧
    (l.Within → (l.receive filter now victims).2.Within) := by
  induction victims generalizing l with
  | nil => exact ⟨rfl, rfl, id⟩
  | cons e rest ih =>
    obtain ⟨bound, lifetime⟩ := l.offerKeeps filter now e.1 e.2
    obtain ⟨last_bound, last_lifetime, within⟩ := ih (l.offer filter now e.1 e.2).2
    exact ⟨last_bound.trans bound, last_lifetime.trans lifetime,
      fun before => within (l.offerWithin filter now e.1 e.2 before)⟩

/- What a step takes off the line it reports, whichever keys are counted. -/
section counted
variable (q : K → Bool)

theorem fitCounted (l : Line K V) :
    (l.fit).2.waiting.countP (fun a => q a.key) + (l.fit).1.countP q =
      l.waiting.countP (fun a => q a.key) := by
  have parts := congrArg (List.countP (fun a => q a.key)) (List.take_append_drop l.excess l.waiting)
  simp only [fit, List.countP_append, List.countP_map, Function.comp_def] at parts ⊢
  omega

theorem offerCounted (filter : Filter K V) (l : Line K V) (now : Nat) (k : K) (v : V) :
    (l.offer filter now k v).2.waiting.countP (fun a => q a.key) +
      (l.offer filter now k v).1.countP q =
        l.waiting.countP (fun a => q a.key) + if q k then 1 else 0 := by
  unfold offer
  split
  · have parts := congrArg (List.countP (fun a => q a.key)) (List.takeWhile_append_dropWhile
      (p := fun a => a.expired l.lifetime now) (l := l.waiting))
    have fitted := fitCounted q { l with
      waiting := l.waiting.dropWhile (fun a => a.expired l.lifetime now) ++ [⟨k, v, now⟩] }
    simp only [enqueue, List.countP_append, List.countP_map, List.countP_singleton,
      Function.comp_def] at parts fitted ⊢
    omega
  · rw [List.countP_singleton]

theorem receiveCounted (filter : Filter K V) (now : Nat) (victims : List (K × V)) (l : Line K V) :
    (l.receive filter now victims).2.waiting.countP (fun a => q a.key) +
      (l.receive filter now victims).1.countP q =
        l.waiting.countP (fun a => q a.key) + victims.countP (fun e => q e.1) := by
  induction victims generalizing l with
  | nil => rfl
  | cons e rest ih =>
    have first := l.offerCounted q filter now e.1 e.2
    have others := ih (l.offer filter now e.1 e.2).2
    simp only [receive, List.countP_append, List.countP_cons]
    omega

theorem purgeCounted (l : Line K V) (now : Nat) :
    (l.purge now).2.waiting.countP (fun a => q a.key) + (l.purge now).1.countP q =
      l.waiting.countP (fun a => q a.key) := by
  have parts := List.countP_eq_countP_filter_add l.waiting (fun a => q a.key)
    (fun a => a.expired l.lifetime now)
  rw [Nat.add_comm] at parts
  simp only [purge, List.countP_map]
  exact parts.symm

end counted

variable [BEq K]

def lookup (l : Line K V) (now : Nat) (k : K) : Option V :=
  (find Admission.key (l.live now) k).map Admission.value

def remove (l : Line K V) (k : K) : Line K V := { l with waiting := without Admission.key l.waiting k }

/- Unlike `enqueue`, for any key: an entry waiting under it leaves without being reported. -/
def accept (l : Line K V) (now : Nat) (k : K) (v : V) : Receipt K × Line K V :=
  if l.bound = some 0 then (.refused k, l)
  else
    let gone := l.waiting.takeWhile (fun a => a.expired l.lifetime now)
    let kept := l.waiting.dropWhile (fun a => a.expired l.lifetime now)
    let joined : Line K V := { l with waiting := without Admission.key kept k ++ [⟨k, v, now⟩] }
    (.admitted (gone.map Admission.key ++ joined.fit.1), joined.fit.2)

theorem acceptFresh (l : Line K V) (now : Nat) {k : K} (opened : l.bound ≠ some 0)
    (fresh : find Admission.key l.waiting k = none) (v : V) :
    l.accept now k v = (.admitted (l.enqueue now k v).1, (l.enqueue now k v).2) := by
  have kept := Keyed.withoutNone (fun a mem =>
    Keyed.findNone.mp fresh a ((List.dropWhile_sublist (fun a => a.expired l.lifetime now)).subset mem))
  unfold accept enqueue
  simp only [if_neg opened, kept]

end Line

namespace Overflow
variable {K V : Type}

def Cell.admission (c : Cell K V) : Admission K V := ⟨c.key, c.handle.value, c.handle.admitted⟩

theorem cellExpired (c : Cell K V) (lifetime : Option Nat) (now : Nat) :
    c.admission.expired lifetime now = c.handle.expired lifetime now := rfl

variable [BEq K]

structure Layout (o : Overflow K V) (cells : List (Cell K V)) : Prop where
  queued : Queued o.held o.queue cells
  fresh : ∀ r ∈ o.queue, r.generation < o.nextGeneration

def Shows (o : Overflow K V) (l : Line K V) : Prop :=
  ∃ cells, o.Layout cells ∧ (∀ c ∈ cells, c.name = c.key) ∧
    l = ⟨cells.map Cell.admission, o.bound, o.lifetime⟩

/-- The tier shows the line by cells of a certain kind; `Shows` is the case where every handle is held
under the spelling it was admitted with. -/
def Spelled (fits : Cell K V → Prop) (o : Overflow K V) (l : Line K V) : Prop :=
  ∃ cells, o.Layout cells ∧ (∀ c ∈ cells, fits c) ∧ l = ⟨cells.map Cell.admission, o.bound, o.lifetime⟩

theorem cellFind (cells : List (Cell K V)) (k : K) :
    find Admission.key (cells.map Cell.admission) k = (find Cell.key cells k).map Cell.admission :=
  Keyed.findMapped _ _ _ _

namespace Queued
variable {held : Dict K (Handle V)} {queue : List (Record K)} {cells : List (Cell K V)} {limit : Nat}

theorem within (queued : Queued held queue cells) (fits : held.size ≤ limit) (lifetime : Option Nat) :
    Line.Within ⟨cells.map Cell.admission, some limit, lifetime⟩ := by
  intro most capped
  rw [← Option.some.inj capped, List.length_map, ← queued.size]
  exact fits

/- Tier and line drop the same while they are too long, each time the oldest. -/
theorem trim [EquivBEq K] (limit : Nat) (lifetime : Option Nat) (queued : Queued held queue cells) :
    let l : Line K V := ⟨cells.map Cell.admission, some limit, lifetime⟩
    let trimmed := trimQueue limit queue held
    trimmed.1 = l.fit.1 ∧ trimmed.2.1.Sublist queue ∧ ∃ left, left.Sublist cells ∧
      Queued trimmed.2.2 trimmed.2.1 left ∧ l.fit.2 = ⟨left.map Cell.admission, some limit, lifetime⟩ := by
  dsimp only
  induction queue generalizing held cells with
  | nil =>
    have none : cells = [] := by simpa using queued.records.symm
    have fits : held.size ≤ limit := by
      rw [queued.size, none]
      exact Nat.zero_le _
    rw [trimFits fits, (queued.within fits lifetime).fit]
    exact ⟨rfl, List.Sublist.refl _, cells, List.Sublist.refl _, queued, rfl⟩
  | cons r rest ih =>
    by_cases fits : held.size ≤ limit
    · rw [trimFits fits, (queued.within fits lifetime).fit]
      exact ⟨rfl, List.Sublist.refl _, cells, List.Sublist.refl _, queued, rfl⟩
    · rw [trimLong fits]
      cases front : current held r with
      | none =>
        obtain ⟨trimmed, sub, left⟩ := ih (queued.dropStale front)
        exact ⟨trimmed, sub.cons r, left⟩
      | some h =>
        obtain ⟨c, others, rfl, rfl, rfl⟩ := queued.frontCurrent front
        have long : limit < ((c :: others).map Cell.admission).length := by
          rw [List.length_map, ← queued.size]
          omega
        obtain ⟨trimmed, sub, left, among, kept, fitted⟩ := ih (queued.eraseFront rfl)
        rw [Line.fitStep (a := c.admission) rfl rfl long]
        exact ⟨congrArg (c.key :: ·) trimmed, sub.cons c.record, left, among.cons c, kept, fitted⟩

end Queued

namespace Layout
variable {o : Overflow K V} {cells : List (Cell K V)}

theorem compact (layout : o.Layout cells) :
    o.compact.Layout cells ∧ o.compact.bound = o.bound ∧ o.compact.lifetime = o.lifetime := by
  unfold Overflow.compact
  split
  · exact ⟨layout, rfl, rfl⟩
  · exact ⟨⟨layout.queued.compacted, fun r mem => layout.fresh r (List.mem_filter.mp mem).1⟩, rfl, rfl⟩

variable [EquivBEq K]

theorem sweep (layout : o.Layout cells) (now : Nat) :
    (o.sweep now).1 = (cells.takeWhile (fun c => c.handle.expired o.lifetime now)).map Cell.key ∧
    (o.sweep now).2.Layout (cells.dropWhile (fun c => c.handle.expired o.lifetime now)) ∧
    (o.sweep now).2.bound = o.bound ∧ (o.sweep now).2.lifetime = o.lifetime := by
  cases lifetime : o.lifetime with
  | none =>
    have kept : cells.dropWhile (fun c => c.handle.expired none now) = cells := by
      cases cells <;> simp [Handle.expired]
    have none_gone : cells.takeWhile (fun c => c.handle.expired none now) = [] := by
      cases cells <;> simp [Handle.expired]
    rw [o.sweepForever now lifetime, kept, none_gone]
    exact ⟨rfl, layout, rfl, lifetime⟩
  | some span =>
    unfold Overflow.sweep
    rw [lifetime]
    obtain ⟨swept, left, sub⟩ := layout.queued.sweep (some span) now
    exact ⟨swept, ⟨left, fun r mem => layout.fresh r (sub.subset mem)⟩, rfl, rfl⟩

theorem store (layout : o.Layout cells) (now : Nat) (k : K) (v : V) :
    (o.store now k v).Layout (Queued.readmitted cells k ⟨v, now, o.nextGeneration⟩) where
  queued := layout.queued.store k v now layout.fresh
  fresh := by
    intro r mem
    rcases List.mem_append.mp mem with mem | mem
    · exact Nat.lt_succ_of_lt (layout.fresh r mem)
    · obtain rfl := List.mem_singleton.mp mem
      exact Nat.lt_succ_self _

theorem erase (layout : o.Layout cells) (k : K) :
    Layout { o with held := o.held.erase k } (without Cell.key cells k) :=
  ⟨layout.queued.erase k, layout.fresh⟩

theorem keep (layout : o.Layout cells) (live : Handle V → Bool) :
    Layout { o with held := o.held.filter (fun _ h => live h) } (cells.filter (fun c => live c.handle)) :=
  ⟨layout.queued.keep live, layout.fresh⟩

end Layout

end Overflow
end TieredCache
