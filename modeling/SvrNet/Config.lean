import SvrNet.CData

namespace SvrNet
open CData

/-- `PACK_VERSION`. -/
def packVersion : Nat := 0

/-- Longest user data of one exchange, by the protocol. -/
def netPackSpaceSizeLimit : Nat := 64 * 1024

/-- Size of the receive buffer of the loop thread. -/
def netRecvBuffSize : Nat := 256 * 1024

/-- Longest packet, header and user data together. -/
def netPackSizeLimit : Nat := netPackSpaceSizeLimit + 1024

/-- Room for the unfinished packet that is kept between two readable events. -/
def netRemainCacheSize : Nat := netPackSizeLimit

/-- Most bytes that one `recv` asks for. -/
def netRecvSizeLimit : Nat := netRecvBuffSize - netRemainCacheSize

/-- Size of the send buffer of the loop thread. -/
def netSendBuffSize : Nat := 256 * 1024

/-- The values of the limits, for linear arithmetic. -/
theorem limits :
    netPackSpaceSizeLimit = 65536 ∧ netRecvBuffSize = 262144 ∧ netRemainCacheSize = 66560 ∧
      netRecvSizeLimit = 195584 ∧ netSendBuffSize = 262144 ∧ intMax = 2147483647 := by
  decide

end SvrNet
