import Mathlib.Data.List.Nodup
import Mathlib.Logic.Function.Basic
import TieredCache.ConfigReader

/-! What a configuration is read from. An object gives a field at most once, and then with the JSON value that
stands for it, whatever else it holds and in whatever order; a field that it does not give has its default. An
array gives the first fields. -/
namespace TieredCache

namespace Json

def ofBound : Option UInt64 → Json
  | none => .null
  | some n => .natural n.toNat

def ofMembers (members : List (String × Json)) : Json := .object (members.map (fun m => (some m.1, m.2)))

theorem flagSome {value : Json} {b : Bool} : value.flag? = some b ↔ value = .bool b := by
  cases value <;> simp [flag?]

theorem boundSome {value : Json} {size : Option UInt64} : value.bound? = some size ↔ value = ofBound size := by
  cases value with
  | null => cases size <;> simp [bound?, ofBound]
  | natural n =>
    show (if n < UInt64.size then _ else none) = _ ↔ _
    by_cases small : n < UInt64.size
    · rw [if_pos small]
      constructor
      · intro read
        obtain rfl := Option.some.inj read
        exact congrArg natural (UInt64.toNat_ofNat_of_lt' small).symm
      · intro same
        cases size with
        | none => cases same
        | some m =>
          obtain rfl := natural.inj same
          simp
    · rw [if_neg small]
      refine ⟨nofun, fun same => ?_⟩
      cases size with
      | none => cases same
      | some m =>
        obtain rfl := natural.inj same
        exact absurd m.toNat_lt small
  | bool | number | text | array | object => cases size <;> simp [bound?, ofBound]

theorem ofBoundInj {m n : Option UInt64} (same : ofBound m = ofBound n) : m = n := by
  have read := boundSome.mpr same
  rw [boundSome.mpr rfl] at read
  exact Option.some.inj read

end Json

namespace Config

inductive Field where
  | lru
  | cacheSize
  | softSize
  | reclaimAfter
  | concurrencyHint
  deriving DecidableEq, Repr

namespace Field

def all : List Field := [.lru, .cacheSize, .softSize, .reclaimAfter, .concurrencyHint]

def name : Field → String
  | .lru => "lru_enabled"
  | .cacheSize => "cache_size"
  | .softSize => "soft_size"
  | .reclaimAfter => "reclaim_after_ms"
  | .concurrencyHint => "concurrency_hint"

def Admits : Field → Json → Prop
  | .lru, value => ∃ b, value = .bool b
  | _, value => value = .null ∨ ∃ n < UInt64.size, value = .natural n

theorem memAll (f : Field) : f ∈ all := by cases f <;> decide

theorem nameInj {f g : Field} (same : f.name = g.name) : f = g := by
  cases f <;> cases g <;> first | rfl | exact absurd same (by decide)

theorem admitsBound (value : Json) :
    (value = .null ∨ ∃ n < UInt64.size, value = .natural n) ↔ ∃ size, value = Json.ofBound size := by
  constructor
  · rintro (rfl | ⟨n, small, rfl⟩)
    · exact ⟨none, rfl⟩
    · exact ⟨some (UInt64.ofNat n), congrArg Json.natural (UInt64.toNat_ofNat_of_lt' small).symm⟩
  · rintro ⟨none | n, rfl⟩
    · exact .inl rfl
    · exact .inr ⟨n.toNat, n.toNat_lt, rfl⟩

end Field

/-- The JSON value that stands for what a field is set to. -/
def written (c : Config) : Field → Json
  | .lru => .bool c.lru
  | .cacheSize => .ofBound c.cacheSize
  | .softSize => .ofBound c.softSize
  | .reclaimAfter => .ofBound c.reclaimAfter
  | .concurrencyHint => .ofBound c.concurrencyHint

theorem writtenAdmitted (c : Config) (f : Field) : f.Admits (c.written f) := by
  cases f with
  | lru => exact ⟨c.lru, rfl⟩
  | cacheSize | softSize | reclaimAfter | concurrencyHint => exact (Field.admitsBound _).mpr ⟨_, rfl⟩

theorem writtenInj {c d : Config} (same : ∀ f, c.written f = d.written f) : c = d := by
  have lru := Json.bool.inj (same .lru)
  have cacheSize := Json.ofBoundInj (same .cacheSize)
  have softSize := Json.ofBoundInj (same .softSize)
  have reclaimAfter := Json.ofBoundInj (same .reclaimAfter)
  have concurrencyHint := Json.ofBoundInj (same .concurrencyHint)
  cases c
  cases d
  simp_all

/- Admitted values, one for each field, make up a configuration. -/
theorem writtenOnto {values : Field → Json} (admitted : ∀ f : Field, f.Admits (values f)) :
    ∃ c : Config, ∀ f, c.written f = values f := by
  obtain ⟨lru, lru_value⟩ := admitted .lru
  obtain ⟨cacheSize, cache_value⟩ := (Field.admitsBound _).mp (admitted .cacheSize)
  obtain ⟨softSize, soft_value⟩ := (Field.admitsBound _).mp (admitted .softSize)
  obtain ⟨reclaimAfter, reclaim_value⟩ := (Field.admitsBound _).mp (admitted .reclaimAfter)
  obtain ⟨concurrencyHint, hint_value⟩ := (Field.admitsBound _).mp (admitted .concurrencyHint)
  refine ⟨{ lru, cacheSize, softSize, reclaimAfter, concurrencyHint }, fun f => ?_⟩
  cases f with
  | lru => exact lru_value.symm
  | cacheSize => exact cache_value.symm
  | softSize => exact soft_value.symm
  | reclaimAfter => exact reclaim_value.symm
  | concurrencyHint => exact hint_value.symm

namespace Draft

def given (d : Draft) : Field → Option Json
  | .lru => d.lru.map .bool
  | .cacheSize => d.cacheSize.map .ofBound
  | .softSize => d.softSize.map .ofBound
  | .reclaimAfter => d.reclaimAfter.map .ofBound
  | .concurrencyHint => d.concurrencyHint.map .ofBound

/-- The draft of a configuration that gives only some of its fields. -/
def part (keep : Field → Bool) (c : Config) : Draft where
  lru := if keep .lru then some c.lru else none
  cacheSize := if keep .cacheSize then some c.cacheSize else none
  softSize := if keep .softSize then some c.softSize else none
  reclaimAfter := if keep .reclaimAfter then some c.reclaimAfter else none
  concurrencyHint := if keep .concurrencyHint then some c.concurrencyHint else none

theorem givenPart (keep : Field → Bool) (c : Config) (f : Field) :
    (part keep c).given f = if keep f then some (c.written f) else none := by
  cases f <;> exact apply_ite (Option.map _) _ _ _

/- The defaults of the reader are those of a configuration. -/
theorem configWritten (d : Draft) (f : Field) :
    d.config.written f = (d.given f).getD (({} : Config).written f) := by
  obtain ⟨lru, cacheSize, softSize, reclaimAfter, concurrencyHint⟩ := d
  cases f with
  | lru => cases lru <;> rfl
  | cacheSize => cases cacheSize <;> rfl
  | softSize => cases softSize <;> rfl
  | reclaimAfter => cases reclaimAfter <;> rfl
  | concurrencyHint => cases concurrencyHint <;> rfl

theorem givenInj {d e : Draft} (same : ∀ f, d.given f = e.given f) : d = e := by
  have flag := Option.map_injective (fun _ _ => Json.bool.inj) (same .lru)
  have bound := Option.map_injective (f := Json.ofBound) (fun _ _ => Json.ofBoundInj)
  have cacheSize := bound (same .cacheSize)
  have softSize := bound (same .softSize)
  have reclaimAfter := bound (same .reclaimAfter)
  have concurrencyHint := bound (same .concurrencyHint)
  cases d
  cases e
  simp_all

section fill
variable {A : Type} {read : Json → Option A} {write : A → Json} {slot : Option A} {put : A → Draft}
  {d e : Draft} {f : Field} {value : Json}

theorem fillSome {read : Option A} {a : A} : fill slot read = some a ↔ slot = none ∧ read = some a := by
  cases slot with
  | none => simp [fillOpen]
  | some old => simp [fillTwice]

theorem fillGiven (reads : ∀ a, read value = some a ↔ value = write a)
    (admits : f.Admits value ↔ ∃ a, value = write a) (shown : d.given f = slot.map write)
    (puts : ∀ a, (put a).given = Function.update d.given f (some (write a))) :
    (fill slot (read value)).map put = some e ↔
      d.given f = none ∧ f.Admits value ∧ e.given = Function.update d.given f (some value) := by
  rw [Option.map_eq_some_iff, admits, shown, Option.map_eq_none_iff]
  constructor
  · rintro ⟨a, filled, rfl⟩
    obtain ⟨empty, known⟩ := fillSome.mp filled
    obtain rfl := (reads a).mp known
    exact ⟨empty, ⟨a, rfl⟩, puts a⟩
  · rintro ⟨empty, ⟨a, rfl⟩, same⟩
    refine ⟨a, fillSome.mpr ⟨empty, (reads a).mpr rfl⟩, givenInj (fun g => ?_)⟩
    rw [puts, same]

end fill

theorem addKnown {d e : Draft} {f : Field} {value : Json} :
    addMember d f.name value = some e ↔
      d.given f = none ∧ f.Admits value ∧ e.given = Function.update d.given f (some value) := by
  have sizes (size : Option UInt64) : value.bound? = some size ↔ value = .ofBound size := Json.boundSome
  cases f with
  | lru => exact fillGiven (fun _ => Json.flagSome) Iff.rfl rfl (fun _ => by funext g; cases g <;> rfl)
  | cacheSize | softSize | reclaimAfter | concurrencyHint =>
    exact fillGiven sizes (Field.admitsBound value) rfl (fun _ => by funext g; cases g <;> rfl)

theorem givenAdmitted {d : Draft} {f : Field} {value : Json} (present : d.given f = some value) :
    f.Admits value := by
  have whole := d.config.writtenAdmitted f
  rwa [configWritten, present] at whole

theorem givenOnto {values : Field → Option Json} (admitted : ∀ f value, values f = some value → f.Admits value) :
    ∃ d : Draft, d.given = values := by
  have each : ∀ f : Field, f.Admits ((values f).getD (({} : Config).written f)) := by
    intro f
    cases at_f : values f with
    | none => exact writtenAdmitted {} f
    | some value => exact admitted f value at_f
  obtain ⟨c, same⟩ := writtenOnto each
  refine ⟨part (fun f => (values f).isSome) c, ?_⟩
  funext f
  rw [givenPart, same]
  cases values f <;> rfl

theorem addUnknown (d : Draft) {name : String} (value : Json) (unknown : ∀ f : Field, f.name ≠ name) :
    addMember d name value = some d := by
  unfold addMember
  split
  · exact absurd rfl (unknown .lru)
  · exact absurd rfl (unknown .cacheSize)
  · exact absurd rfl (unknown .softSize)
  · exact absurd rfl (unknown .reclaimAfter)
  · exact absurd rfl (unknown .concurrencyHint)
  · rfl

end Draft

/-- The values that members give a field. -/
def said (f : Field) (members : List (String × Json)) : List Json :=
  (members.filter (fun m => m.1 = f.name)).map Prod.snd

theorem saidHere (f : Field) (value : Json) (rest : List (String × Json)) :
    said f ((f.name, value) :: rest) = value :: said f rest := by
  simp [said]

theorem saidOther {f : Field} {m : String × Json} (other : m.1 ≠ f.name) (rest : List (String × Json)) :
    said f (m :: rest) = said f rest := by
  simp [said, other]

theorem saidCount (f : Field) (members : List (String × Json)) :
    (members.map Prod.fst).count f.name = (said f members).length := by
  rw [List.count_eq_countP, List.countP_map, List.countP_eq_length_filter, said, List.length_map]
  rfl

theorem saidMem {f : Field} {members : List (String × Json)} {value : Json} :
    value ∈ said f members ↔ (f.name, value) ∈ members := by
  simp [said]

section step
variable {d next e : Draft} {f : Field} {value : Json} {rest : List (String × Json)}

theorem saidApart {g : Field} (different : g ≠ f) : said g ((f.name, value) :: rest) = said g rest :=
  saidOther (fun same => different (Field.nameInj same).symm) rest

theorem addedSaid (added : Draft.addMember d f.name value = some next)
    (later : ∀ g, (next.given g).toList ++ said g rest = (e.given g).toList) (g : Field) :
    (d.given g).toList ++ said g ((f.name, value) :: rest) = (e.given g).toList := by
  obtain ⟨empty, _, filled⟩ := Draft.addKnown.mp added
  have at_g := later g
  rw [filled] at at_g
  by_cases same : g = f
  · subst same
    rw [Function.update_self] at at_g
    rw [saidHere, empty]
    exact at_g
  · rw [Function.update_of_ne same] at at_g
    rw [saidApart same]
    exact at_g

/- A field that is said here is said neither before nor after. -/
theorem saidOnce (whole : (d.given f).toList ++ said f ((f.name, value) :: rest) = (e.given f).toList) :
    d.given f = none ∧ said f rest = [] ∧ e.given f = some value := by
  rw [saidHere] at whole
  have short := Option.length_toList_le (o := e.given f)
  rw [← whole, List.length_append, List.length_cons] at short
  have empty : d.given f = none := Option.toList_eq_nil_iff.mp (List.length_eq_zero_iff.mp (by omega))
  have last : said f rest = [] := List.length_eq_zero_iff.mp (by omega)
  rw [empty, last] at whole
  exact ⟨empty, last, Option.toList_eq_singleton_iff.mp whole.symm⟩

theorem saidAdded
    (whole : ∀ g, (d.given g).toList ++ said g ((f.name, value) :: rest) = (e.given g).toList) :
    ∃ next, Draft.addMember d f.name value = some next ∧
      ∀ g, (next.given g).toList ++ said g rest = (e.given g).toList := by
  obtain ⟨empty, last, present⟩ := saidOnce (whole f)
  have admitted := Draft.givenAdmitted present
  have all : ∀ g v, Function.update d.given f (some value) g = some v → g.Admits v := by
    intro g v at_g
    by_cases same : g = f
    · subst same
      rw [Function.update_self] at at_g
      exact Option.some.inj at_g ▸ admitted
    · rw [Function.update_of_ne same] at at_g
      exact Draft.givenAdmitted at_g
  obtain ⟨next, filled⟩ := Draft.givenOnto all
  refine ⟨next, Draft.addKnown.mpr ⟨empty, admitted, filled⟩, fun g => ?_⟩
  rw [filled]
  by_cases same : g = f
  · subst same
    rw [Function.update_self, last, present]
    rfl
  · rw [Function.update_of_ne same, ← saidApart same]
    exact whole g

end step

/- One more member after another: what the draft gives and what is said come to what it gives in the end. -/
theorem foldAdd (members : List (String × Json)) (d e : Draft) :
    members.foldlM (fun d m => Draft.addMember d m.1 m.2) d = some e ↔
      ∀ f, (d.given f).toList ++ said f members = (e.given f).toList := by
  induction members generalizing d with
  | nil =>
    simp only [said, List.filter_nil, List.map_nil, List.append_nil]
    constructor
    · intro same f
      rw [Option.some.inj same]
    · intro same
      exact congrArg some (Draft.givenInj (fun f => by simpa using congrArg List.head? (same f)))
  | cons m rest ih =>
    obtain ⟨name, value⟩ := m
    rw [List.foldlM_cons, Option.bind_eq_bind, Option.bind_eq_some_iff]
    by_cases known : ∃ f : Field, f.name = name
    · obtain ⟨f, rfl⟩ := known
      constructor
      · rintro ⟨next, added, others⟩
        exact addedSaid added ((ih next).mp others)
      · intro whole
        obtain ⟨next, added, later⟩ := saidAdded whole
        exact ⟨next, added, (ih next).mpr later⟩
    · have unknown : ∀ f : Field, f.name ≠ name := fun f same => known ⟨f, same⟩
      simp only [d.addUnknown value unknown, Option.some.injEq, exists_eq_left', ih]
      refine forall_congr' (fun f => ?_)
      rw [saidOther (Ne.symm (unknown f))]

/-- Each field is said once, as it is in the configuration, or not at all where it has its default. -/
def Describes (members : List (String × Json)) (c : Config) : Prop :=
  ∀ f, said f members = [] ∧ c.written f = ({} : Config).written f ∨ said f members = [c.written f]

theorem ofMembersSome {members : List (String × Json)} {c : Config} :
    ofMembers? members = some c ↔ Describes members c := by
  unfold ofMembers?
  rw [Option.map_eq_some_iff]
  constructor
  · rintro ⟨d, added, rfl⟩ f
    have at_f := (foldAdd members {} d).mp added f
    rw [Draft.configWritten]
    cases shown : d.given f with
    | none =>
      rw [shown] at at_f
      exact .inl ⟨(List.append_eq_nil_iff.mp at_f).2, rfl⟩
    | some value =>
      rw [shown] at at_f
      refine .inr ?_
      cases f <;> exact at_f
  · intro described
    let d := Draft.part (fun f => !(said f members).isEmpty) c
    refine ⟨d, (foldAdd members {} d).mpr (fun f => ?_), writtenInj (fun f => ?_)⟩
    · rw [Draft.givenPart]
      rcases described f with ⟨nothing, _⟩ | once
      · rw [nothing]
        cases f <;> rfl
      · rw [once]
        cases f <;> rfl
    · rw [Draft.configWritten, Draft.givenPart]
      rcases described f with ⟨nothing, missing⟩ | once
      · simp [nothing, missing]
      · simp [once]

theorem ofJsonMembers (members : List (String × Json)) : ofJson? (.ofMembers members) = ofMembers? members := by
  have named : (members.map (fun m => (some m.1, m.2))).mapM
      (fun m : Option String × Json => m.1.map (·, m.2)) = some members := by
    induction members with
    | nil => rfl
    | cons m rest ih => simp [List.mapM_cons, ih]
  unfold ofJson? Json.ofMembers
  dsimp only
  rw [named]
  rfl

theorem ofJsonSome {members : List (String × Json)} {c : Config} :
    ofJson? (.ofMembers members) = some c ↔ Describes members c := by
  rw [ofJsonMembers, ofMembersSome]

theorem itemSome {A : Type} {read : Json → Option A} {write : A → Json}
    (reads : ∀ value a, read value = some a ↔ value = write a) (inj : ∀ a b, write a = write b → a = b)
    (default : A) (item : Option Json) (a : A) :
    item? read default item = some a ↔ item.getD (write default) = write a := by
  cases item with
  | none => exact ⟨fun same => congrArg write (Option.some.inj same), fun same => congrArg some (inj _ _ same)⟩
  | some value => exact reads value a

theorem ofItemsSome {items : List Json} {c : Config} :
    ofItems? items = some c ↔ items.length ≤ 5 ∧
      ∀ f, (items[Field.all.idxOf f]?).getD (({} : Config).written f) = c.written f := by
  have flags := itemSome (fun _ _ => Json.flagSome) (fun _ _ => Json.bool.inj)
  have sizes := itemSome (fun _ _ => Json.boundSome) (fun _ _ => Json.ofBoundInj)
  unfold ofItems?
  by_cases long : 5 < items.length
  · simp only [if_pos long]
    exact ⟨nofun, fun short => absurd short.1 (by omega)⟩
  · simp only [if_neg long, Option.bind_eq_bind, Option.bind_eq_some_iff]
    constructor
    · rintro ⟨lru, flag, cacheSize, cache, softSize, soft, reclaimAfter, reclaim, concurrencyHint, hint, same⟩
      obtain rfl := Option.some.inj same
      refine ⟨Nat.le_of_not_lt long, fun f => ?_⟩
      cases f with
      | lru => exact (flags _ _ _).mp flag
      | cacheSize => exact (sizes _ _ _).mp cache
      | softSize => exact (sizes _ _ _).mp soft
      | reclaimAfter => exact (sizes _ _ _).mp reclaim
      | concurrencyHint => exact (sizes _ _ _).mp hint
    · rintro ⟨_, each⟩
      exact ⟨c.lru, (flags _ _ _).mpr (each .lru), c.cacheSize, (sizes _ _ _).mpr (each .cacheSize),
        c.softSize, (sizes _ _ _).mpr (each .softSize), c.reclaimAfter, (sizes _ _ _).mpr (each .reclaimAfter),
        c.concurrencyHint, (sizes _ _ _).mpr (each .concurrencyHint), rfl⟩

def named (pairs : List (Field × Json)) : List (String × Json) := pairs.map (fun p => (p.1.name, p.2))

theorem saidNamed (f : Field) (pairs : List (Field × Json)) :
    said f (named pairs) = (pairs.filter (fun p => p.1 = f)).map Prod.snd := by
  unfold said named
  rw [List.filter_map, List.map_map]
  have same : ∀ p : Field × Json, decide (p.1.name = f.name) = decide (p.1 = f) :=
    fun p => decide_eq_decide.mpr ⟨Field.nameInj, congrArg Field.name⟩
  simp only [Function.comp_def, same]

theorem saidListed (c : Config) {fields : List Field} (distinct : fields.Nodup) (f : Field) :
    said f (named (fields.map (fun f => (f, c.written f)))) = if f ∈ fields then [c.written f] else [] := by
  rw [saidNamed, List.filter_map, List.map_map]
  show (fields.filter (fun g => g = f)).map c.written = _
  rw [List.filter_eq, List.map_replicate]
  split
  · next mem => rw [List.count_eq_one_of_mem distinct mem]; rfl
  · next out => rw [List.count_eq_zero_of_not_mem out]; rfl

theorem zipListed {fields : List Field} (distinct : fields.Nodup) {f : Field} (mem : f ∈ fields)
    (items : List Json) :
    ((fields.zip items).filter (fun p => p.1 = f)).map Prod.snd = (items[fields.idxOf f]?).toList := by
  induction fields generalizing items with
  | nil => cases mem
  | cons g rest ih =>
    obtain ⟨out, distinct⟩ := List.nodup_cons.mp distinct
    cases items with
    | nil => rfl
    | cons value items =>
      rw [List.zip_cons_cons]
      by_cases same : g = f
      · subst same
        have others : (rest.zip items).filter (fun p => p.1 = g) = [] :=
          List.filter_eq_nil_iff.mpr (fun p also at_g =>
            out (of_decide_eq_true at_g ▸ (List.of_mem_zip also).1))
        rw [List.filter_cons_of_pos (by simp), List.map_cons, others, List.idxOf_cons_self]
        rfl
      · have later : f ∈ rest := (List.mem_cons.mp mem).resolve_left (Ne.symm same)
        rw [List.filter_cons_of_neg (by simpa using same), List.idxOf_cons_ne _ same, ih distinct later]
        rfl

theorem ofItemsNamed {items : List Json} (few : items.length ≤ 5) :
    ofItems? items = ofMembers? (named (Field.all.zip items)) := by
  refine Option.ext (fun c => ?_)
  rw [ofItemsSome, ofMembersSome]
  have each (f : Field) : said f (named (Field.all.zip items)) = (items[Field.all.idxOf f]?).toList :=
    (saidNamed f _).trans (zipListed (by decide) f.memAll items)
  constructor
  · rintro ⟨_, read⟩ f
    have at_f := read f
    rw [each]
    cases item : items[Field.all.idxOf f]? with
    | none =>
      rw [item] at at_f
      exact .inl ⟨rfl, at_f.symm⟩
    | some value =>
      rw [item] at at_f
      exact .inr (congrArg (fun v => [v]) at_f)
  · intro described
    refine ⟨few, fun f => ?_⟩
    have at_f := described f
    rw [each] at at_f
    cases item : items[Field.all.idxOf f]? with
    | none =>
      rw [item] at at_f
      simpa [eq_comm] using at_f
    | some value =>
      rw [item] at at_f
      simpa using at_f

theorem describedOnce {members : List (String × Json)} {c : Config} (described : Describes members c) (f : Field) :
    (members.map Prod.fst).count f.name ≤ 1 ∧
    (∀ value, (f.name, value) ∈ members → c.written f = value) ∧
    (f.name ∉ members.map Prod.fst → c.written f = ({} : Config).written f) := by
  refine ⟨?_, ?_, ?_⟩
  · rw [saidCount]
    rcases described f with ⟨nothing, _⟩ | once
    · simp [nothing]
    · simp [once]
  · intro value mem
    have present := saidMem.mpr mem
    rcases described f with ⟨nothing, _⟩ | once
    · simp [nothing] at present
    · rw [once] at present
      exact (List.mem_singleton.mp present).symm
  · intro out
    rcases described f with ⟨_, missing⟩ | once
    · exact missing
    · have mem := saidMem.mp (show c.written f ∈ said f members by simp [once])
      exact absurd (List.mem_map_of_mem mem) out

theorem describedExists (members : List (String × Json)) :
    (∃ c, Describes members c) ↔ (∀ f : Field, (members.map Prod.fst).count f.name ≤ 1) ∧
      ∀ (f : Field) value, (f.name, value) ∈ members → f.Admits value := by
  constructor
  · rintro ⟨c, described⟩
    refine ⟨fun f => (describedOnce described f).1, fun f value mem => ?_⟩
    rw [← (describedOnce described f).2.1 value mem]
    exact c.writtenAdmitted f
  · rintro ⟨once, admitted⟩
    let values (f : Field) : Json := (said f members).head?.getD (({} : Config).written f)
    have each : ∀ f : Field, f.Admits (values f) := by
      intro f
      unfold values
      cases values : said f members with
      | nil => exact writtenAdmitted {} f
      | cons value rest => exact admitted f value (saidMem.mp (by simp [values]))
    obtain ⟨c, same⟩ := writtenOnto each
    refine ⟨c, fun f => ?_⟩
    have at_f := same f
    have short := once f
    unfold values at at_f
    rw [saidCount] at short
    cases values : said f members with
    | nil =>
      rw [values] at at_f
      exact .inl ⟨rfl, at_f⟩
    | cons value rest =>
      rw [values] at at_f short
      have last : rest = [] := List.length_eq_zero_iff.mp (by simpa using short)
      rw [last, at_f]
      exact .inr rfl

def isKnown (m : String × Json) : Bool := (Field.all.map Field.name).contains m.1

theorem saidKnown (f : Field) (members : List (String × Json)) : said f (members.filter isKnown) = said f members := by
  unfold said
  rw [List.filter_filter]
  refine congrArg _ (List.filter_congr (fun m _ => ?_))
  by_cases at_f : m.1 = f.name
  · have known : isKnown m = true := by
      rw [isKnown, at_f, List.contains_iff_mem]
      exact List.mem_map_of_mem f.memAll
    rw [known, Bool.and_true]
  · simp [at_f]

theorem describesKnown {one other : List (String × Json)} (alike : (one.filter isKnown).Perm (other.filter isKnown))
    (c : Config) (described : Describes one c) : Describes other c := by
  intro f
  have perm : (said f one).Perm (said f other) := by
    rw [← saidKnown, ← saidKnown f other]
    exact (alike.filter _).map _
  rcases described f with ⟨nothing, missing⟩ | once
  · exact .inl ⟨List.perm_nil.mp (nothing ▸ perm.symm), missing⟩
  · exact .inr (List.perm_singleton.mp (once ▸ perm.symm))

/-- A reader of configurations, by the objects and arrays that it accepts and what it makes of them. -/
structure Reader (read : Json → Option Config) : Prop where
  accepts : ∀ members, (read (.ofMembers members)).isSome ↔
    (∀ f : Field, (members.map Prod.fst).count f.name ≤ 1) ∧
    ∀ (f : Field) value, (f.name, value) ∈ members → f.Admits value
  given : ∀ members c, read (.ofMembers members) = some c →
    ∀ (f : Field) value, (f.name, value) ∈ members → c.written f = value
  missing : ∀ members c, read (.ofMembers members) = some c →
    ∀ f : Field, f.name ∉ members.map Prod.fst → c.written f = ({} : Config).written f
  unsized : ∀ members c, read (.ofMembers members) = some c →
    ("cache_size" ∉ members.map Prod.fst → c.cacheSize = some 1000) ∧
    (("cache_size", .null) ∈ members → c.cacheSize = none)
  known : ∀ one other : List (String × Json), (one.filter isKnown).Perm (other.filter isKnown) →
    read (.ofMembers one) = read (.ofMembers other)
  recovers : ∀ (c : Config) (fields : List Field), fields.Nodup →
    (∀ f, f ∉ fields → c.written f = ({} : Config).written f) →
    read (.ofMembers (fields.map (fun f => (f.name, c.written f)))) = some c
  lists : ∀ items, items.length ≤ 5 →
    read (.array items) = read (.ofMembers ((Field.all.map Field.name).zip items))

theorem readerJson : Reader ofJson? where
  accepts := by
    intro members
    rw [Option.isSome_iff_exists, ← describedExists]
    exact exists_congr (fun c => ofJsonSome)
  given := fun _ _ read f => (describedOnce (ofJsonSome.mp read) f).2.1
  missing := fun _ _ read f => (describedOnce (ofJsonSome.mp read) f).2.2
  unsized := by
    intro members c read
    obtain ⟨_, given, missing⟩ := describedOnce (ofJsonSome.mp read) .cacheSize
    exact ⟨fun out => Json.ofBoundInj (missing out), fun mem => Json.ofBoundInj (given .null mem)⟩
  known := by
    intro one other alike
    refine Option.ext (fun c => ?_)
    rw [ofJsonSome, ofJsonSome]
    exact ⟨describesKnown alike c, describesKnown alike.symm c⟩
  recovers := by
    intro c fields distinct defaults
    have listed : fields.map (fun f => (f.name, c.written f)) = named (fields.map (fun f => (f, c.written f))) := by
      simp [named]
    rw [listed, ofJsonSome]
    intro f
    rw [saidListed c distinct]
    by_cases mem : f ∈ fields
    · exact .inr (if_pos mem)
    · exact .inl ⟨if_neg mem, defaults f mem⟩
  lists := by
    intro items few
    have zipped : (Field.all.map Field.name).zip items = named (Field.all.zip items) :=
      List.zip_map_left
    rw [ofJsonMembers, zipped]
    exact ofItemsNamed few

example : ofJson? (.ofMembers [("soft_size", .natural 0), ("colour", .text none), ("cache_size", .null)]) =
    some { cacheSize := none, softSize := some 0 } := by decide

end Config
end TieredCache
