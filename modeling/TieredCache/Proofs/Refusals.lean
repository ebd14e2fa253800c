import TieredCache.Proofs.Refinement
import TieredCache.Proofs.Victims

/-! What a session refuses. A call on keys is refused if one of them has no identity, in words that name
the operation, and for nothing else; then nothing has changed and nothing was heard, however many good
entries of a batch stood before the bad one. A batch of good ones is its puts, one after another. Of a key
made up of optional parts and pairs, identity means that no part is missing. -/
namespace TieredCache
variable {K V A : Type}

/-- What keys are made of: parts that always have identity, parts that may be missing, and pairs. -/
inductive Form : Type 1 where
  | leaf (T : Type) (identity : Identity T) (always : ∀ k : T, Identity.valid k = true)
  | optional (inner : Form)
  | pair (left right : Form)

namespace Form

def Key : Form → Type
  | leaf T _ _ => T
  | optional inner => Option inner.Key
  | pair left right => left.Key × right.Key

instance identity : (form : Form) → Identity form.Key
  | leaf _ identity _ => identity
  | optional inner =>
      have := inner.identity
      inferInstanceAs (Identity (Option inner.Key))
  | pair left right =>
      have := left.identity
      have := right.identity
      inferInstanceAs (Identity (left.Key × right.Key))

/-- Somewhere in the key, however deep, a part is missing. -/
inductive Misses : (form : Form) → form.Key → Prop where
  | here {inner : Form} : Misses (optional inner) (none : Option inner.Key)
  | inside {inner : Form} {k : inner.Key} (misses : Misses inner k) : Misses (optional inner) (some k)
  | left {left right : Form} {a : left.Key} (misses : Misses left a) (b : right.Key) :
      Misses (pair left right) (a, b)
  | right {left right : Form} (a : left.Key) {b : right.Key} (misses : Misses right b) :
      Misses (pair left right) (a, b)

theorem missesSome {inner : Form} (k : inner.Key) :
    (optional inner).Misses (some k) ↔ inner.Misses k := by
  constructor
  · intro misses
    cases misses with
    | inside deeper => exact deeper
  · exact fun misses => .inside misses

theorem missesPair {left right : Form} (a : left.Key) (b : right.Key) :
    (pair left right).Misses (a, b) ↔ left.Misses a ∨ right.Misses b := by
  constructor
  · intro misses
    cases misses with
    | left misses b => exact .inl misses
    | right a misses => exact .inr misses
  · rintro (misses | misses)
    · exact .left misses b
    · exact .right a misses

theorem validWhole (form : Form) (key : form.Key) : Identity.valid key = true ↔ ¬form.Misses key := by
  induction form with
  | leaf T identity always => exact ⟨fun _ misses => (nomatch misses), fun _ => always key⟩
  | optional inner ih =>
    cases key with
    | none =>
      refine ⟨fun valid => ?_, fun whole => absurd .here whole⟩
      exact Bool.noConfusion ((noneInvalid (K := inner.Key)).symm.trans valid)
    | some k =>
      calc Identity.valid (some k) = true
        _ ↔ Identity.valid k = true := by rw [someValid]
        _ ↔ ¬inner.Misses k := ih k
        _ ↔ ¬(optional inner).Misses (some k) := not_congr (missesSome k).symm
  | pair left right one two =>
    obtain ⟨a, b⟩ := key
    calc Identity.valid (a, b) = true
      _ ↔ (Identity.valid a && Identity.valid b) = true := by rw [pairValid]
      _ ↔ Identity.valid a = true ∧ Identity.valid b = true := Bool.and_eq_true_iff
      _ ↔ ¬left.Misses a ∧ ¬right.Misses b := and_congr (one a) (two b)
      _ ↔ ¬(left.Misses a ∨ right.Misses b) := not_or.symm
      _ ↔ ¬(pair left right).Misses (a, b) := not_congr (missesPair a b).symm

end Form

/-- The keys that a call is about, and the operation that checks them. -/
def Call.keyed : Call K V → Option (KeyedOp × List K)
  | .get k => some (.get, [k])
  | .put k _ => some (.put, [k])
  | .putAll entries => some (.putAll, entries.map Prod.fst)
  | .remove k => some (.remove, [k])
  | .pin k => some (.pin, [k])
  | .unpin k => some (.unpin, [k])
  | .isPinned k => some (.isPinned, [k])
  | .containsKey k => some (.containsKey, [k])
  | .peek k => some (.peek, [k])
  | _ => none

/-- The keys that a call is about, and the name of the call that stands in a refusal. -/
def Call.named : Call K V → Option (String × List K)
  | .get k => some ("get", [k])
  | .put k _ => some ("put", [k])
  | .putAll entries => some ("put_all", entries.map Prod.fst)
  | .remove k => some ("remove", [k])
  | .pin k => some ("pin", [k])
  | .unpin k => some ("unpin", [k])
  | .isPinned k => some ("is_pinned", [k])
  | .containsKey k => some ("contains_key", [k])
  | .peek k => some ("peek", [k])
  | _ => none

theorem Call.namedKeyed (call : Call K V) :
    call.named = call.keyed.map (fun about => (about.1.name, about.2)) := by
  cases call <;> rfl

/-- The puts that a batch stands for. -/
def Call.puts (entries : List (K × V)) : List (Move K V) := entries.map (fun e => .call (.put e.1 e.2))

variable [Identity K]

namespace Cache
variable {c : Cache K V} {op : KeyedOp} {keys : List K}

def barred (c : Cache K V) (op : KeyedOp) : Outcome K V (Reply K V) :=
  { answer := .refused (.keyless op), events := [], cache := c }

/-- What a call on some keys comes to: an answer if all of them have identity, and else nothing but the
refusal. -/
inductive Checked (c : Cache K V) (op : KeyedOp) (keys : List K) : Outcome K V (Reply K V) → Prop where
  | granted {outcome : Outcome K V (Reply K V)} (valid : ∀ k ∈ keys, Identity.valid k = true)
      (answered : ∀ error, outcome.answer ≠ .refused error) : Checked c op keys outcome
  | barred {k : K} (mem : k ∈ keys) (invalid : Identity.valid k = false) : Checked c op keys (c.barred op)

namespace Checked
variable {outcome : Outcome K V (Reply K V)}

theorem refused (checked : c.Checked op keys outcome) (error : Error) :
    outcome.answer = .refused error ↔ error = .keyless op ∧ ∃ k ∈ keys, Identity.valid k = false := by
  cases checked with
  | granted valid answered =>
    refine ⟨fun refused => absurd refused (answered error), fun ⟨_, k, mem, invalid⟩ => ?_⟩
    exact Bool.noConfusion ((valid k mem).symm.trans invalid)
  | barred mem invalid =>
    refine ⟨fun refused => ?_, fun ⟨same, _⟩ => congrArg Reply.refused same.symm⟩
    exact ⟨(Reply.refused.inj refused).symm, _, mem, invalid⟩

theorem whole (checked : c.Checked op keys outcome) {error : Error} (refused : outcome.answer = .refused error) :
    outcome.cache = c ∧ outcome.events = [] := by
  cases checked with
  | granted valid answered => exact absurd refused (answered error)
  | barred mem invalid => exact ⟨rfl, rfl⟩

end Checked

theorem checkAllFails {k : K} (mem : k ∈ keys) (invalid : Identity.valid k = false) :
    checkAll op keys = .error (.keyless op) := by
  have some : keys.all Identity.valid = false := List.all_eq_false.mpr ⟨k, mem, by simp [invalid]⟩
  rw [checkAllEq, some]
  rfl

theorem checkOne (op : KeyedOp) (k : K) : check op k = checkAll op [k] := by
  unfold checkAll
  cases check op k <;> rfl

theorem checkedReply (c : Cache K V) (op : KeyedOp) (keys : List K) {say : A → Reply K V}
    (answers : ∀ a error, say a ≠ .refused error) (outcome : Outcome K V A) :
    c.Checked op keys (c.replied say (do checkAll op keys; return outcome)) := by
  by_cases valid : ∀ k ∈ keys, Identity.valid k = true
  · rw [(checkAllOk op keys).mpr valid]
    exact .granted valid (answers outcome.answer)
  · push Not at valid
    obtain ⟨k, mem, invalid⟩ := valid
    have refused := Bool.eq_false_iff.mpr invalid
    rw [checkAllFails mem refused]
    exact .barred mem refused

theorem checkedOne (c : Cache K V) (op : KeyedOp) (k : K) {say : A → Reply K V}
    (answers : ∀ a error, say a ≠ .refused error) (outcome : Outcome K V A) :
    c.Checked op [k] (c.replied say (do check op k; return outcome)) := by
  rw [checkOne]
  exact c.checkedReply op [k] answers outcome

/- To look is to reply and change nothing. -/
theorem checkedLook (c : Cache K V) (op : KeyedOp) (k : K) {say : A → Reply K V}
    (answers : ∀ a error, say a ≠ .refused error) (a : A) :
    c.Checked op [k] (c.observed (.of say (do check op k; return a))) := by
  have same : c.observed (.of say (do check op k; return a)) =
      c.replied say (do check op k; return { answer := a, events := [], cache := c }) := by
    cases check op k <;> rfl
  rw [same]
  exact c.checkedOne op k answers _

variable [BEq K]

theorem stepChecked (filter : Filter K V) (now : Nat) (c : Cache K V) {call : Call K V}
    (keyed : call.keyed = some (op, keys)) : c.Checked op keys (c.step filter now call) := by
  cases call <;> cases keyed
  case get k => exact c.checkedOne .get k nofun (c.fetch filter now k)
  case put k v => exact c.checkedOne .put k nofun (c.store filter now k v)
  case putAll entries =>
    have answers : ∀ (_ : Unit) error, (.done : Reply K V) ≠ .refused error := nofun
    exact c.checkedReply .putAll _ answers (c.storeAll filter now entries)
  case remove k => exact c.checkedOne .remove k nofun (c.discard now k)
  case pin k => exact c.checkedOne .pin k nofun (c.hold now k)
  case unpin k => exact c.checkedOne .unpin k nofun (c.release filter now k)
  case isPinned k => exact c.checkedLook .isPinned k nofun (c.pins.contains k)
  case containsKey k => exact c.checkedLook .containsKey k nofun (c.holds now k)
  case peek k => exact c.checkedLook .peek k nofun (c.glance now k)

theorem stepUnchecked (filter : Filter K V) (now : Nat) (c : Cache K V) {call : Call K V}
    (keyless : call.keyed = none) (error : Error) : (c.step filter now call).answer ≠ .refused error := by
  intro refused
  cases call <;> first | cases refused | cases keyless

end Cache

namespace Session
variable [BEq K]

/-- What a session refuses, what a refusal leaves behind, and what a batch that is not refused comes to. -/
structure Refuses (filter : Filter K V) (s : Session K V) : Prop where
  exact : ∀ call name keys, Call.named call = some (name, keys) → ∀ error, s.answer filter call = .refused error ↔
    error = .invalidArgument (name ++ " called with a key that has no identity") ∧
      ∃ k ∈ keys, Identity.valid k = false
  others : ∀ call, Call.named call = none → ∀ error, s.answer filter call ≠ .refused error
  atomic : ∀ call error, s.answer filter call = .refused error →
    s.after filter call = s ∧ s.events filter call = []
  batch : ∀ entries, (∀ e ∈ entries, Identity.valid e.1 = true) →
    s.answer filter (.putAll entries) = .done ∧
    s.after filter (.putAll entries) = s.run filter (Call.puts entries) ∧
    s.events filter (.putAll entries) = (s.trace filter (Call.puts entries)).flatMap Prod.snd

theorem stepPut (filter : Filter K V) (s : Session K V) {k : K} (valid : Identity.valid k = true) (v : V) :
    s.step filter (.call (.put k v)) =
      let stored := s.cache.store filter s.now k v
      ((.value stored.answer, stored.events), { s with cache := stored.cache }) := by
  have passes : Cache.check .put k = .ok () := (Cache.checkOk .put k).mpr valid
  simp only [step, Cache.step, Cache.put, passes]
  rfl

theorem runPuts (filter : Filter K V) (s : Session K V) {entries : List (K × V)}
    (valid : ∀ e ∈ entries, Identity.valid e.1 = true) :
    s.run filter (Call.puts entries) = { s with cache := (s.cache.storeAll filter s.now entries).cache } ∧
    (s.trace filter (Call.puts entries)).flatMap Prod.snd = (s.cache.storeAll filter s.now entries).events := by
  induction entries generalizing s with
  | nil => exact ⟨rfl, rfl⟩
  | cons e rest ih =>
    obtain ⟨here, others⟩ := List.forall_mem_cons.mp valid
    have stored := s.stepPut filter here e.2
    obtain ⟨state, events⟩ := ih (s.step filter (.call (.put e.1 e.2))).2 others
    rw [stored] at state events
    refine ⟨?_, ?_⟩
    · calc s.run filter (Call.puts (e :: rest))
        _ = (s.step filter (.call (.put e.1 e.2))).2.run filter (Call.puts rest) := rfl
        _ = _ := by rw [stored]; exact state
    · calc (s.trace filter (Call.puts (e :: rest))).flatMap Prod.snd
        _ = (s.step filter (.call (.put e.1 e.2))).1.2 ++
            ((s.step filter (.call (.put e.1 e.2))).2.trace filter (Call.puts rest)).flatMap Prod.snd := rfl
        _ = _ := by rw [stored, events]; rfl

theorem stepBatch (filter : Filter K V) (s : Session K V) {entries : List (K × V)}
    (valid : ∀ e ∈ entries, Identity.valid e.1 = true) :
    s.step filter (.call (.putAll entries)) =
      let stored := s.cache.storeAll filter s.now entries
      ((.done, stored.events), { s with cache := stored.cache }) := by
  have passes : Cache.checkAll .putAll (entries.map Prod.fst) = .ok () :=
    (Cache.checkAllOk .putAll _).mpr (List.forall_mem_map.mpr valid)
  simp only [step, Cache.step, Cache.putAll, passes]
  rfl

theorem refusedWhole (filter : Filter K V) (s : Session K V) {call : Call K V} {error : Error}
    (refused : s.answer filter call = .refused error) : s.after filter call = s ∧ s.events filter call = [] := by
  cases keyed : call.keyed with
  | none => exact absurd refused (s.cache.stepUnchecked filter s.now keyed error)
  | some named =>
    obtain ⟨state, events⟩ := (s.cache.stepChecked filter s.now keyed).whole refused
    exact ⟨congrArg (Session.mk s.now) state, events⟩

theorem runRefused (filter : Filter K V) (s : Session K V) :
    s.Refuses filter ∧ ∀ (form : Form) (key : form.Key), Identity.valid key = true ↔ ¬form.Misses key := by
  refine ⟨⟨?exact, ?others, ?atomic, ?batch⟩, Form.validWhole⟩
  case exact =>
    intro call name keys named error
    rw [call.namedKeyed] at named
    obtain ⟨⟨op, about⟩, keyed, same⟩ := Option.map_eq_some_iff.mp named
    obtain ⟨rfl, rfl⟩ := Prod.mk.inj same
    exact (s.cache.stepChecked filter s.now keyed).refused error
  case others =>
    intro call unnamed error
    rw [call.namedKeyed] at unnamed
    exact s.cache.stepUnchecked filter s.now (Option.map_eq_none_iff.mp unnamed) error
  case atomic => exact fun call error refused => s.refusedWhole filter refused
  case batch =>
    intro entries valid
    obtain ⟨state, events⟩ := s.runPuts filter valid
    have batched := s.stepBatch filter valid
    unfold answer after Session.events
    rw [state, events, batched]
    exact ⟨rfl, rfl, rfl⟩

end Session
end TieredCache
