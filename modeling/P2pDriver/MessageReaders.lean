import P2pDriver.Messages

/-!
# How exact the readers of an event message are

`is_message_type` and `get_group_name_from_group_started` are handed a `char*`.
The first knows how much of the array was received, the second does not. This
module compares both with what they are for: to classify a message, and to take
the name out of it.

Results:
1. `isMessageType_exact_iff`: the type test is exact unless the message is
   shorter than the prefix and the type text happens to stand in the array
   behind it.
2. `groupName_exact_iff`: the name is the received payload up to its first space,
   and nothing behind the message is read, exactly when a space was received.
-/

namespace P2pDriver

open Resumable

/-! ## 1. `is_message_type` -/

/-- The text `t` stands in the array right behind the prefix. -/
def TextAt (message : Buffer messageCap) (t : Bytes) : Prop :=
  (message.cells.drop prefixLen).take t.length = t

/-- `is_message_type` where a `size_t` has `w` bits is true of the messages that
reach past the type text and carry it, and of no others. -/
def ClassifiesExactly (w : Nat) (message : Buffer messageCap) (messageLen : Nat)
    (messageType : Bytes) : Prop :=
  isMessageTypeW w message messageLen messageType = some true ↔
    prefixLen + messageType.length ≤ messageLen ∧ TextAt message messageType

namespace MessageReadersLemmas

theorem textAt_iff {message : Buffer messageCap} {t : Bytes} :
    TextAt message t ↔ t <+: message.cells.drop prefixLen := by
  rw [TextAt, List.prefix_iff_eq_take, eq_comm]

/-- `is_message_type` on an array and a length. -/
theorem isMessageTypeW_iff {w : Nat} (hw : 9 ≤ w) (message : Buffer messageCap) {messageLen : Nat}
    (hlen : messageLen ≤ messageCap) {t : Bytes} (ht : prefixLen + t.length ≤ messageCap) :
    isMessageTypeW w message messageLen t = some true ↔
      (messageLen < prefixLen ∨ prefixLen + t.length ≤ messageLen) ∧ TextAt message t := by
  have heq := isMessageTypeW_eq hw (Delivery.ofBuffer message messageLen) ht
  rw [Delivery.buffer_ofBuffer message hlen, Delivery.ofBuffer_length message hlen] at heq
  rw [heq, Option.some.injEq, isType, decide_eq_true_eq, Delivery.buffer_ofBuffer message hlen,
    Delivery.ofBuffer_length message hlen, textAt_iff]

end MessageReadersLemmas

open MessageReadersLemmas

/-- The type test is exact but for messages shorter than the prefix, whose length
passes its subtraction, when the type text stands in the array behind them. -/
theorem isMessageType_exact_iff {w : Nat} (hw : 9 ≤ w) (message : Buffer messageCap)
    {messageLen : Nat} (hlen : messageLen ≤ messageCap) {messageType : Bytes}
    (hne : messageType ≠ []) (hfits : prefixLen + messageType.length ≤ messageCap) :
    ClassifiesExactly w message messageLen messageType ↔
      ¬ (messageLen < prefixLen ∧ TextAt message messageType) := by
  have hpos : 0 < messageType.length := List.length_pos_iff.mpr hne
  rw [ClassifiesExactly, isMessageTypeW_iff hw message hlen hfits]
  constructor
  · rintro hexact ⟨hshort, htext⟩
    have hlong := (hexact.mp ⟨.inl hshort, htext⟩).1
    omega
  · intro h
    constructor
    · rintro ⟨hshort | hlong, htext⟩
      · exact absurd ⟨hshort, htext⟩ h
      · exact ⟨hlong, htext⟩
    · rintro ⟨hlong, htext⟩
      exact ⟨.inr hlong, htext⟩

/-- An array that holds the bytes `b`, and NULs behind them. -/
def arrayOf (b : Bytes) (hb : b.length ≤ messageCap) : Buffer messageCap :=
  (Delivery.mk b [] hb).buffer

/-- A disconnect event, received whole. -/
def disconnectArray : Buffer messageCap :=
  arrayOf (bytes "<3>AP-STA-DISCONNECTED 02:00:00:00:00:01") (by decide)

theorem disconnect_classified :
    ClassifiesExactly sizeBits disconnectArray 40 deviceDisconnected ↔
      ¬ (40 < prefixLen ∧ TextAt disconnectArray deviceDisconnected) :=
  isMessageType_exact_iff (by decide) disconnectArray (by decide) (by decide) (by decide)

/-- Of the same array two bytes are received now: the message before them is
taken for the one received. -/
theorem short_message_misclassified :
    ¬ ∀ w, 9 ≤ w → ∀ (message : Buffer messageCap) (messageLen : Nat) (messageType : Bytes),
      messageLen ≤ messageCap → messageType ≠ [] → prefixLen + messageType.length ≤ messageCap →
        ClassifiesExactly w message messageLen messageType := by
  intro h
  have hexact := h sizeBits (by decide) disconnectArray 2 deviceDisconnected (by decide) (by decide)
    (by decide)
  have htext : TextAt disconnectArray deviceDisconnected := by
    rw [TextAt]
    decide
  have hlong := hexact.mp ((isMessageTypeW_iff (by decide) _ (by decide) (by decide)).mpr
    ⟨.inl (by decide), htext⟩)
  exact absurd hlong.1 (by decide)

/-! ## 2. `get_group_name_from_group_started` -/

/-- The longest beginning of `payload` without the byte `c`. -/
structure IsLongestFree (c : Byte) (payload name : Bytes) : Prop where
  isPrefix : name <+: payload
  free : c ∉ name
  longest : ∀ other, other <+: payload → c ∉ other → other <+: name

/-- The received bytes behind the type text of a started group. -/
def groupPayload (message : Buffer messageCap) (n : Nat) : Bytes :=
  (message.cells.take n).drop (prefixLen + groupStarted.length)

/-- The indices at which `get_group_name_from_group_started` reads the array. -/
def groupNameReads (message : Buffer messageCap) : List Nat :=
  message.scanReads space (messageCap - (prefixLen + groupStarted.length))
    (prefixLen + groupStarted.length)

/-- The function returns the longest beginning of the received payload without a
space, and reads nothing behind the `n` bytes received. -/
def ExtractsExactly (message : Buffer messageCap) (n : Nat) : Prop :=
  ∃ name, getGroupNameFromGroupStarted message = some name ∧
    (∀ i ∈ groupNameReads message, i < n) ∧ IsLongestFree space (groupPayload message n) name

namespace MessageReadersLemmas

theorem isLongestFree_takeWhile (c : Byte) (payload : Bytes) :
    IsLongestFree c payload (payload.takeWhile (· ≠ c)) := by
  refine ⟨List.takeWhile_prefix _, fun h => ?_, fun other hother hfree => ?_⟩
  · simpa using List.mem_takeWhile_imp h
  · obtain ⟨rest, rfl⟩ := hother
    have hall : ∀ b ∈ other, decide (b ≠ c) = true := fun b hb =>
      decide_eq_true fun e => hfree (e ▸ hb)
    rw [List.takeWhile_append_of_pos hall]
    exact List.prefix_append _ _

/-- When a space was received, the scan sees the received payload alone. -/
theorem getGroupName_of_mem {message : Buffer messageCap} {n : Nat} (hn : n ≤ messageCap)
    (hlen : prefixLen + groupStarted.length ≤ n) (h : space ∈ groupPayload message n) :
    getGroupNameFromGroupStarted message =
      some ((groupPayload message n).takeWhile (· ≠ space)) := by
  have hcells : nameCells (Delivery.ofBuffer message n) =
      groupPayload message n ++ (Delivery.ofBuffer message n).residue :=
    nameCells_eq (by rw [Delivery.ofBuffer_length message hn]; exact hlen)
  have heq := getGroupName_eq (Delivery.ofBuffer message n)
  rw [Delivery.buffer_ofBuffer message hn, hcells, if_pos (List.mem_append_left _ h),
    takeWhile_append_of_mem h] at heq
  exact heq

end MessageReadersLemmas

/-- The name of a started group is extracted as it should be exactly when a space
was received behind the type text. -/
theorem groupName_exact_iff (message : Buffer messageCap) {n : Nat} (hn : n ≤ messageCap)
    (hlen : prefixLen + groupStarted.length ≤ n) :
    ExtractsExactly message n ↔ space ∈ groupPayload message n := by
  have hreads : (∀ i ∈ groupNameReads message, i < n) ↔ space ∈ groupPayload message n :=
    Buffer.scanReads_lt_iff message space (by decide) hn
  constructor
  · rintro ⟨name, -, hlt, -⟩
    exact hreads.mp hlt
  · intro h
    exact ⟨_, getGroupName_of_mem hn hlen h, hreads.mpr h, isLongestFree_takeWhile space _⟩

/-- A started group with its interface and role. -/
def startedArray : Buffer messageCap :=
  arrayOf (bytes "<3>P2P-GROUP-STARTED p2p-wlan0-0 GO") (by decide)

theorem started_extracted :
    ExtractsExactly startedArray 35 ↔ space ∈ groupPayload startedArray 35 :=
  groupName_exact_iff startedArray (by decide) (by decide)

/-- Received up to the end of the name only, the scan goes on behind the message. -/
theorem cut_group_overread :
    ¬ ∀ (message : Buffer messageCap) (n : Nat), n ≤ messageCap →
      prefixLen + groupStarted.length ≤ n → TextAt message groupStarted →
        ExtractsExactly message n := by
  intro h
  obtain ⟨-, -, hlt, -⟩ := h startedArray 32 (by decide) (by decide) (by rw [TextAt]; decide)
  exact absurd (hlt 32 (by decide)) (by decide)

end P2pDriver
