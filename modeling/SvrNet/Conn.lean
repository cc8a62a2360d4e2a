import Mathlib.Logic.Function.Basic

namespace SvrNet

abbrev ConnId := UInt64

/-- `SVR_INVALID_CONNECT_ID`. -/
def svrInvalidConnectId : ConnId := 0xFFFFFFFFFFFFFFFF

/-- `conn_map`. Of a stored connection only `client_fd` is ever read again. -/
abbrev ConnTable := ConnId → Option Int

/-- `conn_insert`, with the values that the calls of `Gen_ConnID` return. It draws again while
the id is taken or is the invalid one; without a value left it is still drawing. -/
def connInsert (table : ConnTable) (clientFd : Int) : List ConnId → Option (ConnId × ConnTable)
  | [] => none
  | id :: draws =>
    if (table id).isSome ∨ id = svrInvalidConnectId then connInsert table clientFd draws
    else some (id, Function.update table id (some clientFd))

def connRemove (table : ConnTable) (id : ConnId) : ConnTable := Function.update table id none

def connGetSockfd (table : ConnTable) (id : ConnId) : Int := (table id).getD (-1)

theorem connGetSockfd_spec {table : ConnTable} {id : ConnId} (found : connGetSockfd table id ≠ -1) :
    table id = some (connGetSockfd table id) := by
  unfold connGetSockfd at found ⊢
  cases entry : table id with
  | none => simp [entry] at found
  | some fd => rfl

/-- The id handed out was free, and only its entry is new. -/
theorem connInsert_spec {table table' : ConnTable} {clientFd : Int} {draws : List ConnId} {id : ConnId}
    (run : connInsert table clientFd draws = some (id, table')) :
    table id = none ∧ id ≠ svrInvalidConnectId ∧
      table' = Function.update table id (some clientFd) := by
  induction draws with
  | nil => simp [connInsert] at run
  | cons draw draws ih =>
    unfold connInsert at run
    split at run
    · exact ih run
    · rename_i free
      cases Option.some.inj run
      rw [not_or] at free
      exact ⟨Option.not_isSome_iff_eq_none.mp free.1, free.2, rfl⟩

end SvrNet
