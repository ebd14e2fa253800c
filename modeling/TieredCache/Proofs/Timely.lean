import TieredCache.Proofs.Stock

/-! What an operation can do to the line, and that it keeps the line in order of time. The line
changes only by taking a key out, by receiving what leaves the shelf, by fitting another bound and by
losing everything or all that has expired. So admissions stand oldest first, and those that have
expired come before all that are live. -/
namespace TieredCache
open Keyed (Apart find without)
variable {K V : Type}

namespace Line

structure Timely (now : Nat) (l : Line K V) : Prop where
  sorted : l.waiting.Pairwise (fun a b => a.time ≤ b.time)
  past : ∀ a ∈ l.waiting, a.time ≤ now
  lasting : l.lifetime ≠ some 0

variable {l m : Line K V} {now : Nat}

theorem Timely.fewer (timely : l.Timely now) (sub : m.waiting.Sublist l.waiting)
    (lifetime : m.lifetime = l.lifetime) : m.Timely now where
  sorted := timely.sorted.sublist sub
  past := fun a mem => timely.past a (sub.subset mem)
  lasting := lifetime ▸ timely.lasting

theorem Timely.later (timely : l.Timely now) (time : Nat) : l.Timely (now + time) :=
  ⟨timely.sorted, fun a mem => Nat.le_trans (timely.past a mem) (Nat.le_add_right now time), timely.lasting⟩

theorem Timely.joined (timely : l.Timely now) (k : K) (v : V) :
    Timely now { l with waiting := l.waiting ++ [⟨k, v, now⟩] } where
  sorted := by
    refine List.pairwise_append.mpr ⟨timely.sorted, List.pairwise_singleton _ _, fun a mem b alone => ?_⟩
    rw [List.mem_singleton.mp alone]
    exact timely.past a mem
  past := by
    intro a mem
    rcases List.mem_append.mp mem with waits | alone
    · exact timely.past a waits
    · exact Nat.le_of_eq (congrArg Admission.time (List.mem_singleton.mp alone))
  lasting := timely.lasting

theorem Timely.offer (timely : l.Timely now) (filter : Filter K V) (k : K) (v : V) :
    (l.offer filter now k v).2.Timely now := by
  unfold Line.offer
  split
  · let kept : Line K V := { l with waiting := l.waiting.dropWhile (fun a => a.expired l.lifetime now) }
    have left : kept.Timely now := timely.fewer (List.dropWhile_sublist _) rfl
    exact (left.joined k v).fewer (List.drop_sublist _ _) rfl
  · exact timely

theorem Timely.receive (timely : l.Timely now) (filter : Filter K V) (victims : List (K × V)) :
    (l.receive filter now victims).2.Timely now := by
  induction victims generalizing l with
  | nil => exact timely
  | cons e rest ih => exact ih (timely.offer filter e.1 e.2)

/- A lifetime of zero is refused when a cache is set up, or this would not hold. -/
theorem Timely.fresh (timely : l.Timely now) (k : K) (v : V) :
    (⟨k, v, now⟩ : Admission K V).expired l.lifetime now = false := by
  unfold Admission.expired
  cases span : l.lifetime with
  | none => rfl
  | some span' =>
    have positive : span' ≠ 0 := fun zero => timely.lasting (span.trans (congrArg some zero))
    simp only [Nat.sub_self, decide_eq_false_iff_not]
    omega

theorem expiredEarlier {a b : Admission K V} (earlier : a.time ≤ b.time) (lifetime : Option Nat)
    (late : b.expired lifetime now = true) : a.expired lifetime now = true := by
  unfold Admission.expired at late ⊢
  cases lifetime with
  | none => exact late
  | some span =>
    simp only [decide_eq_true_eq] at late ⊢
    omega

theorem frontExpired {waiting : List (Admission K V)} (lifetime : Option Nat)
    (sorted : waiting.Pairwise (fun a b => a.time ≤ b.time)) :
    waiting.takeWhile (fun a => a.expired lifetime now) = waiting.filter (fun a => a.expired lifetime now) ∧
    waiting.dropWhile (fun a => a.expired lifetime now) =
      waiting.filter (fun a => !a.expired lifetime now) := by
  induction waiting with
  | nil => exact ⟨rfl, rfl⟩
  | cons a rest ih =>
    obtain ⟨first, others⟩ := List.pairwise_cons.mp sorted
    obtain ⟨taken, dropped⟩ := ih others
    cases late : a.expired lifetime now with
    | true => simp [late, taken, dropped]
    | false =>
      -- Nobody behind a live admission has expired.
      have live : ∀ b ∈ rest, b.expired lifetime now = false := by
        intro b mem
        cases late_b : b.expired lifetime now with
        | false => rfl
        | true => exact absurd (expiredEarlier (first b mem) lifetime late_b) (by simp [late])
      have none : rest.filter (fun a => a.expired lifetime now) = [] := by simpa using live
      have all : rest.filter (fun a => !a.expired lifetime now) = rest := by simpa using live
      simp [late, none, all]

theorem Timely.parted (timely : l.Timely now) :
    l.waiting.takeWhile (fun a => a.expired l.lifetime now) =
      l.waiting.filter (fun a => a.expired l.lifetime now) ∧
    l.waiting.dropWhile (fun a => a.expired l.lifetime now) = l.live now :=
  frontExpired l.lifetime timely.sorted

variable [BEq K]

inductive Changes (filter : Filter K V) (now : Nat) (l : Line K V) : Line K V → Prop where
  | same : Changes filter now l l
  | removed {m : Line K V} (k : K) (earlier : Changes filter now l m) : Changes filter now l (m.remove k)
  | received {m : Line K V} (victims : List (K × V)) (earlier : Changes filter now l m) :
      Changes filter now l (m.receive filter now victims).2
  | fitted {m : Line K V} (bound : Option Nat) (earlier : Changes filter now l m) :
      Changes filter now l (fit { m with bound := bound }).2
  | purged {m : Line K V} (earlier : Changes filter now l m) : Changes filter now l (m.purge now).2
  | emptied {m : Line K V} (earlier : Changes filter now l m) : Changes filter now l { m with waiting := [] }

theorem Timely.changes {filter : Filter K V} (timely : l.Timely now) (changes : l.Changes filter now m) :
    m.Timely now := by
  induction changes with
  | same => exact timely
  | removed k earlier ih => exact ih.fewer List.filter_sublist rfl
  | received victims earlier ih => exact ih.receive filter victims
  | fitted bound earlier ih => exact ih.fewer (List.drop_sublist _ _) rfl
  | purged earlier ih => exact ih.fewer List.filter_sublist rfl
  | emptied earlier ih => exact ih.fewer (List.nil_sublist _) rfl

end Line

namespace Plain
open Line (Changes)
variable [BEq K] {filter : Filter K V} {now : Nat} {l : Line K V} {p : Plain K V}

theorem changesWithdraw (changes : l.Changes filter now p.line) (k : K) :
    l.Changes filter now (p.withdraw now k).plain.line := by
  rw [(p.withdrawKeeps now k).2.2]
  exact changes.removed k

theorem changesMark (changes : l.Changes filter now p.line) (k : K) :
    l.Changes filter now (p.mark k).line := by
  rw [(p.markKeeps k).2]
  exact changes

theorem changesFetch (changes : l.Changes filter now p.line) (k : K) :
    l.Changes filter now (p.fetch filter now k).plain.line := by
  have taken := changesWithdraw changes k
  unfold fetch
  cases p.shelf.find? k with
  | some v => exact changes
  | none =>
    dsimp only
    cases (p.withdraw now k).answer with
    | none => exact taken
    | some v => exact taken.received _

theorem changesStore (changes : l.Changes filter now p.line) (k : K) (v : V) :
    l.Changes filter now (p.store filter now k v).plain.line := by
  have taken := changesWithdraw changes k
  unfold store
  cases p.shelf.find? k with
  | some old => exact changes
  | none => exact taken.received _

theorem changesStoreAll (changes : l.Changes filter now p.line) (entries : List (K × V)) :
    l.Changes filter now (p.storeAll filter now entries).plain.line := by
  induction entries generalizing p with
  | nil => exact changes
  | cons e rest ih => exact ih (changesStore changes e.1 e.2)

theorem changesHold (changes : l.Changes filter now p.line) (k : K) :
    l.Changes filter now (p.hold now k).plain.line := by
  have taken := changesWithdraw changes k
  unfold hold
  cases p.shelf.find? k with
  | some v => exact changesMark (p := { p with shelf := p.shelf.pin k }) changes k
  | none =>
    dsimp only
    cases (p.withdraw now k).answer with
    | none => exact changesMark taken k
    | some v =>
      let promoted := (p.withdraw now k).plain.count .promotion 1
      exact changesMark (p := { promoted with shelf := promoted.shelf.enter k v true }) taken k

theorem changesRelease (changes : l.Changes filter now p.line) (k : K) :
    l.Changes filter now (p.release filter now k).plain.line := by
  unfold release
  cases p.shelf.find? k with
  | some v => exact changes.received _
  | none => exact changes

variable [Identity K]

theorem changesGiven {op : KeyedOp} {keys : List K} {turn : Turn K V (Reply K V)}
    (changes : p.line.Changes filter now turn.plain.line) :
    p.line.Changes filter now (p.given op keys turn).plain.line := by
  unfold given
  split
  · exact changes
  · exact .same

theorem stepChanges (filter : Filter K V) (now : Nat) (p : Plain K V) (call : Call K V) :
    p.line.Changes filter now (p.step filter now call).plain.line := by
  cases call with
  | get k => exact changesGiven (changesFetch .same k)
  | put k v => exact changesGiven (changesStore .same k v)
  | putAll entries => exact changesGiven (changesStoreAll .same entries)
  | remove k =>
    let removed : Plain K V := { p with shelf := p.shelf.remove k, pins := without id p.pins k }
    exact changesGiven (changesWithdraw (p := removed) .same k)
  | pin k => exact changesGiven (changesHold .same k)
  | unpin k => exact changesGiven (changesRelease .same k)
  | isPinned k => exact changesGiven .same
  | containsKey k => exact changesGiven .same
  | peek k => exact changesGiven .same
  | clear => exact .emptied .same
  | setCacheSize n => exact .received _ .same
  | setSoftSize n => exact .fitted n .same
  | purge => exact .purged .same
  | _ => exact .same

end Plain
end TieredCache
