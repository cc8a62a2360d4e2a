import SvrNet.Conn
import SvrNet.CData

namespace SvrNet
open CData

variable {α : Type}

/-- `m_datamap`: the unfinished packet kept for a connection between two readable events. -/
abbrev RecvMap (α : Type) := ConnId → Option (List α)

/-- `MRecv_insert`. An entry that is already there trips `assert(0)`, which is the case without
a result; compiled out, the call returns -1. -/
def mRecvInsert (asserts : Bool) (datamap : RecvMap α) (id : ConnId) (data : List α) :
    Option (Int × RecvMap α) :=
  if (datamap id).isSome then if asserts then none else some (-1, datamap)
  else some (0, Function.update datamap id (some data))

/-- `MRecv_find`: the result, what is copied to `data`, and `*len` afterwards. -/
def mRecvFind (datamap : RecvMap α) (id : ConnId) (len : Int) : Int × List α × Int :=
  match datamap id with
  | none => (-1, [], -1)
  | some found =>
    if toSize len < found.length then (-1, [], toInt found.length) else (0, found, toInt found.length)

def mRecvRemove (datamap : RecvMap α) (id : ConnId) : RecvMap α := Function.update datamap id none

end SvrNet
