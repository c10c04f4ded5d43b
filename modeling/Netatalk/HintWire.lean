import Netatalk.Bytes

/-! # Cache hints on the wire

The messages in which `afpd` processes tell each other that a cached entry is stale
(`include/atalk/server_ipc.h`).  A message is an IPC header of 14 bytes and a payload of 8, with
the numbers in the byte order of the host; `bigEndian` says which.  The volume and the CNID in a
payload are in network byte order already. -/

namespace Netatalk.Hint

open List Bytes

/-- `CACHE_HINT_REFRESH` and so on. -/
inductive Event where
  | refresh
  | delete
  | deleteChildren
  | volumeReset
deriving DecidableEq, Repr

def Event.code : Event → UInt8
  | .refresh => 0
  | .delete => 1
  | .deleteChildren => 2
  | .volumeReset => 3

/-- `struct hint_entry`. -/
structure HintEntry where
  vid : UInt16
  cnid : UInt32
  event : Event
  sourcePid : UInt32
deriving DecidableEq, Repr

/-- `struct ipc_cache_hint_payload`. -/
structure Payload where
  event : UInt8
  reserved : UInt8
  vid : UInt16
  cnid : UInt32
deriving DecidableEq, Repr

/-- `IPC_CACHE_HINT`. -/
def ipcCacheHint : ℕ := 5

/-- `IPC_HEADERLEN`. -/
def ipcHeaderlen : ℕ := 14

/-- The size of a payload. -/
def payloadLen : ℕ := 8

/-- The size of a message. -/
def msgSize : ℕ := ipcHeaderlen + payloadLen

/-- The payload of a hint. -/
def HintEntry.payload (e : HintEntry) : Payload := ⟨e.event.code, 0, e.vid, e.cnid⟩

section
variable (bigEndian : Bool)

/-- The bytes of a number in memory. -/
def hostBytes (n v : ℕ) : List UInt8 := if bigEndian then beBytes n v else leBytes n v

/-- The number in memory. -/
def hostNat (bs : List UInt8) : ℕ := if bigEndian then beNat bs else leNat bs

/-- `ntohl`. -/
def ntohl (v : UInt32) : ℕ := beNat (hostBytes bigEndian 4 v.toNat)

/-- The bytes of a payload. -/
def Payload.bytes (p : Payload) : List UInt8 :=
  [p.event, p.reserved] ++
    (hostBytes bigEndian 2 p.vid.toNat ++ hostBytes bigEndian 4 p.cnid.toNat)

/-- `serialize_hint`. -/
def serializeHint (e : HintEntry) : List UInt8 :=
  hostBytes bigEndian 2 ipcCacheHint ++ hostBytes bigEndian 4 e.sourcePid.toNat ++
    hostBytes bigEndian 4 0 ++ hostBytes bigEndian 4 payloadLen ++ e.payload.bytes bigEndian

/-- The bytes of hints one after the other. -/
def serializeHints (hints : List HintEntry) : List UInt8 :=
  hints.flatMap (serializeHint bigEndian)

/-- The payload that is copied from the bytes behind a header. -/
def readPayload (bs : List UInt8) : Payload where
  event := bs.getD 0 0
  reserved := bs.getD 1 0
  vid := UInt16.ofNat (hostNat bigEndian ((bs.drop 2).take 2))
  cnid := UInt32.ofNat (hostNat bigEndian ((bs.drop 4).take 4))

@[simp] theorem length_hostBytes (n v : ℕ) : (hostBytes bigEndian n v).length = n := by
  unfold hostBytes
  split_ifs <;> simp

theorem hostNat_hostBytes {n v : ℕ} (h : v < 256 ^ n) :
    hostNat bigEndian (hostBytes bigEndian n v) = v := by
  unfold hostBytes hostNat
  split_ifs
  · exact beNat_beBytes_of_lt h
  · rw [leNat_leBytes, Nat.mod_eq_of_lt h]

@[simp] theorem length_payload (p : Payload) : (p.bytes bigEndian).length = payloadLen := by
  simp [Payload.bytes, payloadLen]

@[simp] theorem length_serializeHint (e : HintEntry) :
    (serializeHint bigEndian e).length = msgSize := by
  simp [serializeHint, msgSize, ipcHeaderlen, payloadLen]

@[simp] theorem length_serializeHints (hints : List HintEntry) :
    (serializeHints bigEndian hints).length = hints.length * msgSize := by
  induction hints with
  | nil => simp [serializeHints]
  | cons e hints ih =>
    rw [serializeHints, flatMap_cons, length_append, ← serializeHints, ih,
      length_serializeHint, length_cons, Nat.succ_mul, add_comm]

theorem serializeHints_append (a b : List HintEntry) : serializeHints bigEndian (a ++ b) =
    serializeHints bigEndian a ++ serializeHints bigEndian b := flatMap_append

theorem serializeHints_drop (hints : List HintEntry) (n : ℕ) :
    (serializeHints bigEndian hints).drop (n * msgSize) =
      serializeHints bigEndian (hints.drop n) := by
  induction n generalizing hints with
  | zero => simp
  | succ n ih =>
    cases hints with
    | nil => simp [serializeHints]
    | cons e hints =>
      have hcons : serializeHints bigEndian (e :: hints) =
          serializeHint bigEndian e ++ serializeHints bigEndian hints := rfl
      rw [hcons, Nat.succ_mul, add_comm, ← drop_drop,
        drop_left' (length_serializeHint _ _), ih, drop_succ_cons]

theorem readPayload_bytes (p : Payload) (rest : List UInt8) :
    readPayload bigEndian (p.bytes bigEndian ++ rest) = p := by
  have hvid : hostNat bigEndian (hostBytes bigEndian 2 p.vid.toNat) = p.vid.toNat :=
    hostNat_hostBytes bigEndian (UInt16.toNat_lt p.vid)
  have hcnid : hostNat bigEndian (hostBytes bigEndian 4 p.cnid.toNat) = p.cnid.toNat :=
    hostNat_hostBytes bigEndian (UInt32.toNat_lt p.cnid)
  have h₂ : ((p.bytes bigEndian ++ rest).drop 2).take 2 = hostBytes bigEndian 2 p.vid.toNat := by
    simp only [Payload.bytes, cons_append, nil_append, drop_succ_cons, append_assoc]
    exact take_left' (length_hostBytes _ _ _)
  have h₄ : ((p.bytes bigEndian ++ rest).drop 4).take 4 = hostBytes bigEndian 4 p.cnid.toNat := by
    simp only [Payload.bytes, cons_append, nil_append, drop_succ_cons,
      append_assoc]
    rw [drop_left' (length_hostBytes _ _ _)]
    exact take_left' (length_hostBytes _ _ _)
  rw [readPayload, h₂, h₄, hvid, hcnid, UInt16.ofNat_toNat, UInt32.ofNat_toNat]
  rfl

theorem readPayload_serializeHint (e : HintEntry) (rest : List UInt8) :
    readPayload bigEndian ((serializeHint bigEndian e ++ rest).drop ipcHeaderlen) = e.payload := by
  have hdrop : (serializeHint bigEndian e ++ rest).drop ipcHeaderlen =
      e.payload.bytes bigEndian ++ rest := by
    rw [serializeHint, append_assoc]
    exact drop_left' (by simp [ipcHeaderlen])
  rw [hdrop, readPayload_bytes]

end

end Netatalk.Hint
