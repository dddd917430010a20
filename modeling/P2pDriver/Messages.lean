import P2pDriver.Calls
import Mathlib.Algebra.Group.Nat.Defs

/-!
# Event messages of the control interface

The constants of `connect.cpp` and the three functions that read an event
message: `is_message_type`, `get_mac_from_neg_request` and
`get_group_name_from_group_started`. All three are handed a `char*` into a
256-byte array and index it without knowing how much of it was received.

Results:
1. `isMessageType_eq`: the type test compares the type text with the cells behind
   the prefix, and lets every message shorter than the prefix through its length
   test (the subtraction wraps).
2. `isType_iff_received`: for a message at least as long as the prefix, only
   received bytes matter.
3. `getMac_eq`, `macWindow_eq`: the address is a fixed window of the buffer.
4. `getGroupName_eq`: the name ends at the first space of the *buffer*, and the
   scan leaves the buffer when there is none.
-/

namespace P2pDriver

open Resumable

/-! ## 1. Constants -/

def controlPath : Bytes := bytes "/var/run/wpa_supplicant/p2p-dev-wlan0"

def scriptStartP2pSearch : Bytes :=
  bytes "/home/pi/Documents/wifip2p/driver/scripts/runtime/start_fresh_p2p_search.sh"

def scriptDisposeP2p : Bytes :=
  bytes "/home/pi/Documents/wifip2p/driver/scripts/runtime/dispose_p2p.sh"

def wpaCliPrefix : Bytes := bytes "wpa_cli -i p2p-dev-wlan0 "
def sudoBash : Bytes := bytes "sudo bash "
def p2pConnect : Bytes := bytes "p2p_connect "
def pbc : Bytes := bytes " pbc"

def goNegRequest : Bytes := bytes "P2P-GO-NEG-REQUEST "
def goNegFailure : Bytes := bytes "P2P-GO-NEG-FAILURE "
def groupFormationFailure : Bytes := bytes "P2P-GROUP-FORMATION-FAILURE "
def groupStarted : Bytes := bytes "P2P-GROUP-STARTED "
def deviceDisconnected : Bytes := bytes "AP-STA-DISCONNECTED "

def maxTimeoutAttempts : Nat := 5
def macAddressLen : Nat := 17
def prefixLen : Nat := 3

/-- `char message_buffer[256]`. -/
def messageCap : Nat := 256

/-- Bits of a `size_t`: the driver is a 32-bit ARM executable. -/
def sizeBits : Nat := 32

/-- A space, the character that ends the name of a group. -/
def space : Byte := 32

/-! ## 2. The three readers -/

/-- Subtraction of two `size_t` values of `w` bits. -/
def sizeSub (w a b : Nat) : Nat := (BitVec.ofNat w a - BitVec.ofNat w b).toNat

/-- `is_message_type` where a `size_t` has `w` bits. `none` is a read outside the
buffer. -/
def isMessageTypeW {cap : Nat} (w : Nat) (message : Buffer cap) (messageLen : Nat)
    (messageType : Bytes) : Option Bool :=
  if sizeSub w messageLen prefixLen < messageType.length then some false
  else message.matchesAt prefixLen messageType

def isMessageType {cap : Nat} (message : Buffer cap) (messageLen : Nat) (messageType : Bytes) :
    Option Bool :=
  isMessageTypeW sizeBits message messageLen messageType

def getMacFromNegRequest {cap : Nat} (message : Buffer cap) : Option Bytes :=
  message.readRange macAddressLen (prefixLen + goNegRequest.length)

def getGroupNameFromGroupStarted {cap : Nat} (message : Buffer cap) : Option Bytes :=
  message.scanUntil space (cap - (prefixLen + groupStarted.length))
    (prefixLen + groupStarted.length)

/-! ## 3. What they read in a message -/

/-- One event datagram in its 256-byte buffer. -/
abbrev Message := Delivery messageCap

/-- The verdict of `is_message_type` on a message. -/
def isType (m : Message) (t : Bytes) : Bool :=
  decide ((m.bytes.length < prefixLen ∨ prefixLen + t.length ≤ m.bytes.length) ∧
    t <+: m.buffer.cells.drop prefixLen)

/-- The window `get_mac_from_neg_request` reads. -/
def macWindow (m : Message) : Bytes :=
  (m.buffer.cells.drop (prefixLen + goNegRequest.length)).take macAddressLen

/-- The bytes of the address field of a request, as far as they were received. -/
def macField (received : Bytes) : Bytes :=
  (received.drop (prefixLen + goNegRequest.length)).take macAddressLen

/-- The cells `get_group_name_from_group_started` scans. -/
def nameCells (m : Message) : Bytes := m.buffer.cells.drop (prefixLen + groupStarted.length)

theorem sizeSub_of_le {w a b : Nat} (ha : a < 2 ^ w) (h : b ≤ a) : sizeSub w a b = a - b := by
  have hb : b < 2 ^ w := by omega
  rw [sizeSub, BitVec.toNat_sub, BitVec.toNat_ofNat, BitVec.toNat_ofNat, Nat.mod_eq_of_lt ha,
    Nat.mod_eq_of_lt hb, show 2 ^ w - b + a = 2 ^ w + (a - b) by omega, Nat.add_mod_left,
    Nat.mod_eq_of_lt (by omega)]

theorem sizeSub_of_lt {w a b : Nat} (hb : b < 2 ^ w) (h : a < b) :
    sizeSub w a b = 2 ^ w - b + a := by
  have ha : a < 2 ^ w := by omega
  rw [sizeSub, BitVec.toNat_sub, BitVec.toNat_ofNat, BitVec.toNat_ofNat, Nat.mod_eq_of_lt ha,
    Nat.mod_eq_of_lt hb, Nat.mod_eq_of_lt (by omega)]

/-- `is_message_type`, for every word size that can hold the length of the
buffer. A message shorter than the prefix passes the length test. -/
theorem isMessageTypeW_eq {w : Nat} (hw : 9 ≤ w) (m : Message) {t : Bytes}
    (ht : prefixLen + t.length ≤ messageCap) :
    isMessageTypeW w m.buffer m.bytes.length t = some (isType m t) := by
  have hfits : m.bytes.length ≤ 256 := m.fits
  have hpow : 2 ^ 9 ≤ 2 ^ w := Nat.pow_le_pow_right (by decide) hw
  have ht' : 3 + t.length ≤ 256 := ht
  have hguard : sizeSub w m.bytes.length prefixLen < t.length ↔
      ¬ (m.bytes.length < prefixLen ∨ prefixLen + t.length ≤ m.bytes.length) := by
    rcases Nat.lt_or_ge m.bytes.length prefixLen with hl | hl
    · rw [sizeSub_of_lt (by simp only [prefixLen]; omega) hl]
      simp only [prefixLen] at hl ⊢
      omega
    · rw [sizeSub_of_le (by omega) hl]
      simp only [prefixLen] at hl ⊢
      omega
  unfold isMessageTypeW isType
  by_cases hg : sizeSub w m.bytes.length prefixLen < t.length
  · rw [if_pos hg]
    simp [hguard.mp hg]
  · rw [if_neg hg, Buffer.matchesAt_eq _ ht]
    have hlen := Decidable.not_not.mp (fun h => hg (hguard.mpr h))
    simp [hlen]

theorem isMessageType_eq (m : Message) {t : Bytes} (ht : prefixLen + t.length ≤ messageCap) :
    isMessageType m.buffer m.bytes.length t = some (isType m t) :=
  isMessageTypeW_eq (by decide) m ht

theorem getMac_eq (m : Message) : getMacFromNegRequest m.buffer = some (macWindow m) :=
  Buffer.readRange_eq _ (by decide)

/-- The scan of the name succeeds exactly when some cell behind the type text is
a space. -/
theorem getGroupName_eq (m : Message) :
    getGroupNameFromGroupStarted m.buffer =
      if space ∈ nameCells m then some ((nameCells m).takeWhile (· ≠ space)) else none :=
  Buffer.scanUntil_eq _ _ (by decide)

/-! ## 4. What depends on the received bytes alone -/

/-- For a message that reaches past the prefix, the type is decided by its
received bytes. -/
theorem isType_iff_received {m : Message} (h : prefixLen ≤ m.bytes.length) (t : Bytes) :
    isType m t = true ↔ t <+: m.bytes.drop prefixLen := by
  simp only [isType, decide_eq_true_eq, m.drop_cells h]
  constructor
  · rintro ⟨hlen | hlen, hpre⟩
    · exact absurd hlen (Nat.not_lt.mpr h)
    · exact List.prefix_of_prefix_length_le hpre (List.prefix_append _ _)
        (by rw [List.length_drop]; omega)
  · intro hpre
    have hlen := hpre.length_le
    rw [List.length_drop] at hlen
    exact ⟨.inr (by omega), hpre.trans (List.prefix_append _ _)⟩

/-- A message with the text of a type reaches behind it. -/
theorem length_of_type {received t : Bytes} (ht : t ≠ []) (h : t <+: received.drop prefixLen) :
    prefixLen + t.length ≤ received.length := by
  have hlen := h.length_le
  have hpos := List.length_pos_iff.mpr ht
  rw [List.length_drop] at hlen
  omega

/-- The address window is the address field, filled up with residual bytes. -/
theorem macWindow_eq {m : Message} (h : prefixLen + goNegRequest.length ≤ m.bytes.length) :
    macWindow m = macField m.bytes ++ m.residue.take
      (macAddressLen - (m.bytes.drop (prefixLen + goNegRequest.length)).length) := by
  rw [macWindow, m.drop_cells h, List.take_append, macField]

/-- The address window lies in the received bytes once they reach its end. -/
theorem macWindow_eq_received {m : Message}
    (h : prefixLen + goNegRequest.length + macAddressLen ≤ m.bytes.length) :
    macWindow m = macField m.bytes := by
  have hfull : macAddressLen - (m.bytes.drop (prefixLen + goNegRequest.length)).length = 0 := by
    rw [List.length_drop]
    omega
  rw [macWindow_eq (Nat.le_of_add_right_le h), hfull, List.take_zero, List.append_nil]

/-- The scan for the end of the name does not leave the received bytes when they
contain a space. -/
theorem nameCells_eq {m : Message} (h : prefixLen + groupStarted.length ≤ m.bytes.length) :
    nameCells m = m.bytes.drop (prefixLen + groupStarted.length) ++ m.residue :=
  m.drop_cells h

/-! ## 5. MAC addresses -/

def isHexDigit (b : Byte) : Bool :=
  (48 ≤ b && b ≤ 57) || (65 ≤ b && b ≤ 70) || (97 ≤ b && b ≤ 102)

/-- The grammar `HH:HH:HH:HH:HH:HH`. -/
def isMac (m : Bytes) : Bool :=
  m.length == macAddressLen &&
    m.zipIdx.all fun (b, i) => if i % 3 = 2 then b = 58 else isHexDigit b

theorem isMac_length {m : Bytes} (h : isMac m = true) : m.length = macAddressLen := by
  simp only [isMac, Bool.and_eq_true, beq_iff_eq] at h
  exact h.1

theorem isMac_no_nul {m : Bytes} (h : isMac m = true) : 0 ∉ m := by
  simp only [isMac, Bool.and_eq_true, List.all_eq_true] at h
  intro h0
  obtain ⟨i, hi, he⟩ := List.mem_iff_getElem.mp h0
  have hall := h.2 (m[i], i) (List.mem_zipIdx_iff_getElem?.mpr (by simp))
  rw [he] at hall
  -- a NUL is neither a colon nor a hexadecimal digit
  split at hall
  · simp at hall
  · simp [isHexDigit] at hall

end P2pDriver
