/-! What the cache refuses, and the words it refuses it in. -/
namespace TieredCache

inductive KeyedOp where
  | get | put | putAll | remove | pin | unpin | isPinned | containsKey | peek
  deriving DecidableEq, Repr

def KeyedOp.name : KeyedOp → String
  | .get => "get"
  | .put => "put"
  | .putAll => "put_all"
  | .remove => "remove"
  | .pin => "pin"
  | .unpin => "unpin"
  | .isPinned => "is_pinned"
  | .containsKey => "contains_key"
  | .peek => "peek"

inductive Error where
  | invalidArgument (detail : String)
  | unsupported (detail : String)
  deriving DecidableEq, Repr

namespace Error

def message : Error → String
  | .invalidArgument detail => "Invalid argument: " ++ detail
  | .unsupported detail => "Unsupported configuration: " ++ detail

def keyless (op : KeyedOp) : Error :=
  .invalidArgument (op.name ++ " called with a key that has no identity")

def zeroConcurrency : Error := .unsupported "concurrency_hint must be at least 1"

def zeroRetention : Error := .unsupported
  "reclaim_after_ms of 0 reclaims on admission; use soft_size = 0 to disable the overflow tier"

end Error
end TieredCache
