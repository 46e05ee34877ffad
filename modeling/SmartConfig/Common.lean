import SmartConfig.Lib.Resource

/-!
# What every file of the library shares

The constants of `common.h`, the framing byte that `smartlinktx.c` and `smartlinkrx.c` both
define with the message it frames, MAC addresses, and what opening and closing a socket logs.
-/

namespace SmartConfig

def INVALID_SOCKET : Int := -1

def SMART_SUCCESS : Int := 0

def SMART_FAIL : Int := -1

def MAC_LEN : Nat := 6

/-- The size of the packet arrays, and with it of everything sent or captured. -/
def PACKET_MAX : Nat := 1500

/-- `START_FLAGS` opens a message and `END_FLAGS` closes it; they are the same byte. -/
def START_FLAGS : UInt8 := 0x7F

def END_FLAGS : UInt8 := 0x7F

/-- A message between its two framing bytes. -/
def framed (m : List UInt8) : List UInt8 := START_FLAGS :: (m ++ [END_FLAGS])

@[simp] theorem length_framed (m : List UInt8) : (framed m).length = m.length + 2 := by
  simp [framed]

/-- A `uint8_t[MAC_LEN]`. -/
abbrev Mac := Vector UInt8 MAC_LEN

/-- `{0}`. -/
def macZero : Mac := Vector.replicate MAC_LEN 0

/-! ## Sockets -/

section Sockets

open Resource

variable {ρ : Type} (r : ρ) (sockfd : Int)

/-- `createUdpSocket` and `createRawSocket`: `socket` has returned `sockfd`, and `r` is the socket
if there is one. -/
def createSocket : List (Use ρ) := if sockfd = INVALID_SOCKET then [] else [.acquire r]

/-- `CLOSE_SOCKET`. -/
def closeSocket : List (Use ρ) := if sockfd > 0 then [.release r] else []

theorem createSocket_resource : ∀ u ∈ createSocket r sockfd, u.resource = r := by
  unfold createSocket
  split
  · exact List.forall_mem_nil _
  · exact List.forall_mem_singleton.mpr rfl

theorem closeSocket_resource : ∀ u ∈ closeSocket r sockfd, u.resource = r := by
  unfold closeSocket
  split
  · exact List.forall_mem_singleton.mpr rfl
  · exact List.forall_mem_nil _

end Sockets

end SmartConfig
