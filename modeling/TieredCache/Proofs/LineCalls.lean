import TieredCache.Proofs.Line

/-! What every call of the overflow tier does to the line it shows. -/
namespace TieredCache.Overflow
open Keyed (Apart find without)
variable {K V : Type} [BEq K] {o : Overflow K V} {l : Line K V}

theorem emptyShows (bound lifetime : Option Nat) :
    (empty bound lifetime : Overflow K V).Shows ⟨[], bound, lifetime⟩ :=
  ⟨[], ⟨Queued.empty, by simp [empty]⟩, by simp, rfl⟩

def admissions (o : Overflow K V) : List (Admission K V) :=
  o.queue.filterMap (fun r => (current o.held r).map (fun h => ⟨r.key, h.value, h.admitted⟩))

section spelled
variable {fits : Cell K V → Prop}

theorem boundShown (shown : o.Spelled fits l) : l.bound = o.bound := by
  obtain ⟨cells, _, _, rfl⟩ := shown
  rfl

theorem lifetimeShown (shown : o.Spelled fits l) : l.lifetime = o.lifetime := by
  obtain ⟨cells, _, _, rfl⟩ := shown
  rfl

theorem clearSpelled (shown : o.Spelled fits l) : o.clear.Spelled fits ⟨[], l.bound, l.lifetime⟩ := by
  rw [boundShown shown, lifetimeShown shown]
  exact ⟨[], ⟨Queued.empty, by simp [clear]⟩, by simp, rfl⟩

theorem heldSize (shown : o.Spelled fits l) : o.held.size = l.waiting.length := by
  obtain ⟨cells, layout, _, rfl⟩ := shown
  simpa using layout.queued.size

theorem waitingApart (shown : o.Spelled fits l) : Apart Admission.key l.waiting := by
  obtain ⟨cells, layout, _, rfl⟩ := shown
  exact (Keyed.apartMapped Admission.key Cell.admission cells).mpr layout.queued.apart

theorem compactSpelled (shown : o.Spelled fits l) : o.compact.Spelled fits l := by
  obtain ⟨cells, layout, kept, rfl⟩ := shown
  obtain ⟨compacted, bound, lifetime⟩ := layout.compact
  exact ⟨cells, compacted, kept, by rw [bound, lifetime]⟩

theorem resizedSpelled (shown : o.Spelled fits l) (bound : Option Nat) :
    Spelled fits { o with bound } { l with bound } := by
  obtain ⟨cells, layout, kept, rfl⟩ := shown
  exact ⟨cells, ⟨layout.queued, layout.fresh⟩, kept, rfl⟩

theorem liveSizeShown (shown : o.Spelled fits l) (now : Nat) : o.liveSize now = (l.live now).length := by
  obtain ⟨cells, layout, _, rfl⟩ := shown
  unfold liveSize Line.live
  rw [layout.queued.handles.countP_eq, List.countP_map, List.filter_map, List.length_map,
    ← List.countP_eq_length_filter]
  rfl

variable [EquivBEq K]

theorem findShown (shown : o.Spelled fits l) (k : K) :
    (o.held.find? k).map (fun h => (h.value, h.admitted)) =
      (find Admission.key l.waiting k).map (fun a => (a.value, a.time)) := by
  obtain ⟨cells, layout, _, rfl⟩ := shown
  rw [cellFind, layout.queued.findHeld, Option.map_map, Option.map_map]
  rfl

theorem absentShown (shown : o.Spelled fits l) (k : K) :
    o.held.find? k = none ↔ find Admission.key l.waiting k = none := by
  have found := findShown shown k
  rw [← Option.map_eq_none_iff, found, Option.map_eq_none_iff]

theorem containsShown (shown : o.Spelled fits l) (k : K) :
    o.held.contains k = (find Admission.key l.waiting k).isSome := by
  have found := congrArg Option.isSome (findShown shown k)
  simpa [Dict.containsFind] using found

theorem lookupShown (shown : o.Spelled fits l) (now : Nat) (k : K) : o.lookup now k = l.lookup now k := by
  have apart := waitingApart shown
  have found := findShown shown k
  unfold Overflow.lookup Line.lookup Line.live
  rw [Keyed.findFilter apart]
  unfold Line.isLive Handle.live?
  rw [lifetimeShown shown]
  cases held : o.held.find? k with
  | none =>
    have absent : find Admission.key l.waiting k = none := by simpa [held] using found.symm
    rw [absent]
    rfl
  | some h =>
    obtain ⟨a, at_k, same⟩ : ∃ a, find Admission.key l.waiting k = some a ∧
        (a.value, a.time) = (h.value, h.admitted) := by
      rw [held] at found
      exact Option.map_eq_some_iff.mp found.symm
    obtain ⟨value, time⟩ := Prod.mk.inj same
    have expired : a.expired o.lifetime now = h.expired o.lifetime now := by
      unfold Admission.expired Handle.expired
      cases o.lifetime <;> simp [time]
    rw [at_k]
    cases late : h.expired o.lifetime now <;> simp [Option.filter, expired, late, value]

theorem withdrawSpelled (shown : o.Spelled fits l) (now : Nat) (k : K) :
    (o.withdraw now k).1 = (match find Admission.key l.waiting k with
      | none => .absent
      | some a => if a.expired l.lifetime now then .expired else .live a.value) ∧
    (o.withdraw now k).2.Spelled fits (l.remove k) := by
  obtain ⟨cells, layout, kept, rfl⟩ := shown
  have look := layout.queued.findHeld k
  unfold Overflow.withdraw
  rw [cellFind, look]
  have rest : Line.remove ⟨cells.map Cell.admission, o.bound, o.lifetime⟩ k =
      ⟨(without Cell.key cells k).map Cell.admission, o.bound, o.lifetime⟩ := by
    unfold Line.remove
    rw [Keyed.withoutMapped]
    rfl
  have erased : Spelled fits { o with held := o.held.erase k }
      ⟨(without Cell.key cells k).map Cell.admission, o.bound, o.lifetime⟩ :=
    ⟨_, layout.erase k, fun c mem => kept c (Keyed.withoutMem.mp mem).1, rfl⟩
  rw [rest]
  cases found : find Cell.key cells k with
  | none =>
    rw [Keyed.withoutNone (Keyed.findNone.mp found)]
    exact ⟨rfl, cells, layout, kept, rfl⟩
  | some c =>
    simp only [Option.map_some, cellExpired, Handle.live?]
    by_cases late : c.handle.expired o.lifetime now = true
    · simp only [late, if_true]
      exact ⟨trivial, erased⟩
    · simp only [late]
      exact ⟨rfl, erased⟩

theorem trimSpelled (shown : o.Spelled fits l) :
    (o.trim).1 = (l.fit).1 ∧ (o.trim).2.Spelled fits (l.fit).2 := by
  obtain ⟨cells, layout, kept, rfl⟩ := shown
  cases bound : o.bound with
  | none =>
    have within : Line.Within ⟨cells.map Cell.admission, none, o.lifetime⟩ := nofun
    rw [o.trimUnbounded bound, within.fit]
    exact ⟨rfl, cells, layout, kept, by rw [bound]⟩
  | some limit =>
    obtain ⟨dropped, sub, left, among, queued, fitted⟩ := layout.queued.trim limit o.lifetime
    unfold Overflow.trim
    rw [bound]
    refine ⟨dropped, left, ⟨queued, fun r mem => layout.fresh r (sub.subset mem)⟩, ?_, fitted⟩
    exact fun c mem => kept c (among.subset mem)

theorem setBoundSpelled (shown : o.Spelled fits l) (bound : Option Nat) :
    (o.setBound bound).1 = (Line.fit { l with bound }).1 ∧
    (o.setBound bound).2.Spelled fits (Line.fit { l with bound }).2 := by
  obtain ⟨trimmed, left⟩ := trimSpelled (resizedSpelled shown bound)
  exact ⟨trimmed, compactSpelled left⟩

theorem sweepSpelled (shown : o.Spelled fits l) (now : Nat) :
    (o.sweep now).1 = (l.waiting.takeWhile (fun a => a.expired l.lifetime now)).map Admission.key ∧
    (o.sweep now).2.Spelled fits
      { l with waiting := l.waiting.dropWhile (fun a => a.expired l.lifetime now) } := by
  obtain ⟨cells, layout, kept, rfl⟩ := shown
  obtain ⟨swept, left, bound, lifetime⟩ := layout.sweep now
  rw [List.takeWhile_map, List.dropWhile_map, List.map_map]
  refine ⟨swept, _, left, ?_, by simp only [bound, lifetime]; rfl⟩
  exact fun c mem => kept c ((List.dropWhile_sublist _).subset mem)

theorem purgeSpelled (shown : o.Spelled fits l) (now : Nat) :
    ∃ gone : List (Cell K V), (∀ c ∈ gone, fits c ∧ (c.name == c.key) = true) ∧
      (o.dropExpired now).1.Perm (gone.map Cell.name) ∧ (l.purge now).1 = gone.map Cell.key ∧
      (o.dropExpired now).2.Spelled fits (l.purge now).2 := by
  obtain ⟨cells, layout, kept, rfl⟩ := shown
  let late : Cell K V → Bool := fun c => c.handle.expired o.lifetime now
  have handles := (layout.queued.keep (fun h => h.expired o.lifetime now)).handles.map Prod.fst
  obtain ⟨left, bound, lifetime⟩ := (layout.keep (fun h => !h.expired o.lifetime now)).compact
  refine ⟨cells.filter late, ?_, ?_, ?_, cells.filter (fun c => !late c), left, ?_, ?_⟩
  · intro c mem
    have held := (List.mem_filter.mp mem).1
    exact ⟨kept c held, layout.queued.spelled c held⟩
  · rwa [List.map_map] at handles
  · unfold Line.purge
    rw [List.filter_map, List.map_map]
    rfl
  · exact fun c mem => kept c (List.mem_filter.mp mem).1
  · unfold dropExpired Line.purge Line.live
    simp only [bound, lifetime, List.filter_map]
    rfl

theorem liveKeysShown (shown : o.Spelled fits l) (now : Nat) :
    o.liveKeys now = (l.live now).map Admission.key := by
  obtain ⟨cells, layout, _, rfl⟩ := shown
  unfold liveKeys Line.live
  rw [layout.queued.liveRecords (fun h => !h.expired o.lifetime now), List.filter_map, List.map_map,
    List.map_map]
  rfl

theorem admissionsShown (shown : o.Spelled fits l) : o.admissions = l.waiting := by
  obtain ⟨cells, layout, _, rfl⟩ := shown
  have handles := congrArg (List.map (fun e : K × Handle V => Admission.mk e.1 e.2.value e.2.admitted))
    layout.queued.currentHandles
  simp only [List.map_filterMap, Option.map_map, List.map_map] at handles
  exact handles

/- A key stored anew is held under the spelling it had. -/
theorem storeSpelled (shown : o.Spelled fits l) (now : Nat) (k : K) (v : V)
    (joins : ∀ name h, (name == k) = true → (o.held.find? k = none → name = k) → fits ⟨name, k, h⟩) :
    (o.store now k v).Spelled fits
      { l with waiting := without Admission.key l.waiting k ++ [⟨k, v, now⟩] } := by
  obtain ⟨cells, layout, kept, rfl⟩ := shown
  have stored := layout.store now k v
  have latest : (⟨Queued.nameOf cells k, k, ⟨v, now, o.nextGeneration⟩⟩ : Cell K V) ∈
      Queued.readmitted cells k ⟨v, now, o.nextGeneration⟩ := by simp [Queued.readmitted]
  have own : o.held.find? k = none → Queued.nameOf cells k = k := by
    intro absent
    have found := layout.queued.findHeld k
    rw [absent] at found
    unfold Queued.nameOf
    rw [Option.map_eq_none_iff.mp found.symm]
    rfl
  have all : ∀ c ∈ Queued.readmitted cells k ⟨v, now, o.nextGeneration⟩, fits c := by
    intro c mem
    rcases List.mem_append.mp mem with old | new
    · exact kept c (Keyed.withoutMem.mp old).1
    · obtain rfl := List.mem_singleton.mp new
      exact joins _ _ (stored.queued.spelled _ latest) own
  have others := Keyed.withoutMapped Admission.key Cell.admission cells k
  exact ⟨_, stored, all, by simp only [others, Queued.readmitted, List.map_append]; rfl⟩

theorem acceptSpelled (shown : o.Spelled fits l) (now : Nat) (k : K) (v : V)
    (joins : ∀ name h, (name == k) = true → (o.held.find? k = none → name = k) → fits ⟨name, k, h⟩) :
    (o.accept now k v).1 = (l.accept now k v).1 ∧
    (o.accept now k v).2.Spelled fits (l.accept now k v).2 := by
  have bound := boundShown shown
  by_cases shut : l.bound = some 0
  · rw [acceptDisabled o now k v (bound ▸ shut)]
    unfold Line.accept
    rw [if_pos shut]
    exact ⟨rfl, shown⟩
  · have enabled : o.enabled = true := by simpa [Overflow.enabled, ← bound] using shut
    obtain ⟨swept, kept⟩ := sweepSpelled shown now
    -- A key that is nowhere in the tier is nowhere in what the sweep leaves.
    have still : o.held.find? k = none → (o.sweep now).2.held.find? k = none := by
      rw [absentShown shown, absentShown kept, Keyed.findNone, Keyed.findNone]
      exact fun absent a mem => absent a ((List.dropWhile_sublist _).subset mem)
    have stored := storeSpelled kept now k v
      (fun name h same own => joins name h same (fun absent => own (still absent)))
    obtain ⟨trimmed, left⟩ := trimSpelled stored
    unfold accept Line.accept
    simp only [if_pos enabled, if_neg shut, swept, trimmed]
    exact ⟨trivial, compactSpelled left⟩

end spelled

theorem heldKeys (shows : o.Shows l) : o.held.keys.Perm (l.waiting.map Admission.key) := by
  obtain ⟨cells, layout, named, rfl⟩ := shows
  have keys := layout.queued.handles.map Prod.fst
  rw [List.map_map] at keys ⊢
  refine keys.trans (List.Perm.of_eq (List.map_congr_left (fun c mem => ?_)))
  exact named c mem

variable [EquivBEq K]

theorem purgeShows (shows : o.Shows l) (now : Nat) :
    (o.dropExpired now).1.Perm (l.purge now).1 ∧ (o.dropExpired now).2.Shows (l.purge now).2 := by
  obtain ⟨gone, named, dropped, purged, left⟩ := purgeSpelled shows now
  have same : gone.map Cell.name = gone.map Cell.key :=
    List.map_congr_left (fun c mem => (named c mem).1)
  exact ⟨purged ▸ same ▸ dropped, left⟩

theorem acceptShows (shows : o.Shows l) (now : Nat) {k : K} (opened : l.bound ≠ some 0)
    (fresh : find Admission.key l.waiting k = none) (v : V) :
    (o.accept now k v).1.dropped = (l.enqueue now k v).1 ∧
    (o.accept now k v).2.Shows (l.enqueue now k v).2 := by
  have absent := (absentShown shows k).mpr fresh
  obtain ⟨receipt, left⟩ := acceptSpelled shows now k v (fun name h _ own => own absent)
  rw [l.acceptFresh now opened fresh v] at receipt left
  exact ⟨congrArg Receipt.dropped receipt, left⟩

theorem offerShows (shows : o.Shows l) (filter : Filter K V) (now : Nat) {k : K}
    (fresh : find Admission.key l.waiting k = none) (v : V) :
    (if filter k v then (o.accept now k v).1.dropped else [k]) = (l.offer filter now k v).1 ∧
    (if filter k v then (o.accept now k v).2 else o).Shows (l.offer filter now k v).2 := by
  unfold Line.offer
  cases accepted : filter k v with
  | false => simpa using shows
  | true =>
    by_cases opened : l.bound = some 0
    · have closed : o.bound = some 0 := (boundShown shows).symm.trans opened
      simpa [acceptDisabled o now k v closed, Receipt.dropped, opened] using shows
    · simpa [opened] using acceptShows shows now opened fresh v

theorem offerLeaves (filter : Filter K V) (now : Nat) {k : K} {v : V} {rest : List (K × V)}
    (others : ∀ e ∈ rest, (e.1 == k) = false)
    (fresh : ∀ e ∈ rest, find Admission.key l.waiting e.1 = none) :
    ∀ e ∈ rest, find Admission.key (l.offer filter now k v).2.waiting e.1 = none := by
  intro e mem
  rw [Keyed.findNone]
  intro a waits
  rcases l.offerWaits filter now k v waits with waited | rfl
  · exact Keyed.findNone.mp (fresh e mem) a waited
  · exact Keyed.unequalSymm (others e mem)

theorem receiveShows (shows : o.Shows l) (filter : Filter K V) (now : Nat) {victims : List (K × V)}
    (apart : Apart Prod.fst victims) (fresh : ∀ e ∈ victims, find Admission.key l.waiting e.1 = none) :
    (o.receive filter now victims).1 = (l.receive filter now victims).1 ∧
    (o.receive filter now victims).2.Shows (l.receive filter now victims).2 := by
  induction victims generalizing o l with
  | nil => exact ⟨rfl, shows⟩
  | cons e rest ih =>
    obtain ⟨k, v⟩ := e
    obtain ⟨others, apart⟩ := Keyed.apartCons.mp apart
    obtain ⟨dropped, offered⟩ := offerShows shows filter now (fresh (k, v) (by simp)) v
    have still := offerLeaves filter now (v := v) others (fun e mem => fresh e (by simp [mem]))
    obtain ⟨later, final⟩ := ih offered apart still
    unfold receive Line.receive
    cases accepted : filter k v with
    | true =>
      simp only [accepted, if_true] at dropped later final ⊢
      exact ⟨by rw [dropped, later], final⟩
    | false =>
      simp only [accepted, Bool.false_eq_true, if_false] at dropped later final ⊢
      exact ⟨by rw [← dropped, later]; rfl, final⟩

end TieredCache.Overflow
