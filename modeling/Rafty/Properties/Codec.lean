import Rafty.Kv.Codec

/-!
# The encoding of commands is an exact prefix code

* `deserializeChecked_eq` — no read of `deserialize` goes past the end, on any bytes.
* `layout_of_deserialize`, `deserialize_of_layout` — the bytes it accepts: an operation, two numbers
  of eight bytes and two strings with their lengths in front, and then anything.
* `command_codec` — `deserialize` finds a command exactly in the bytes that begin with what
  `serialize` makes of it.

A number is read back from the bytes it was written as, and every eight (or four) bytes are the
bytes of some number, so the fields of fixed width are in bijection with their bytes; the lengths in
front do the rest.
-/

namespace Rafty

open Infra

/-! ## Numbers -/

theorem toBytes_little_succ (width n : Nat) :
    toBytes .little (width + 1) n = UInt8.ofNat (n % 256) :: toBytes .little width (n / 256) := by
  simp only [toBytes, List.range_succ_eq_map, List.map_cons, List.map_map, Nat.pow_zero,
    Nat.div_one]
  refine congrArg _ (List.map_congr_left fun i _ => ?_)
  simp only [Function.comp_apply, Nat.succ_eq_add_one, Nat.pow_succ', Nat.div_div_eq_div_mul]

/-- The other byte order is the same bytes from the other end. -/
theorem toBytes_big (width n : Nat) :
    toBytes .big width n = (toBytes .little width n).reverse := rfl

theorem fromBytes_big (bytes : Bytes) : fromBytes .big bytes = fromBytes .little bytes.reverse := by
  simp only [fromBytes, List.foldr_reverse]
  congr 1
  funext n b
  exact Nat.add_comm _ _

@[simp] theorem length_toBytes (order : ByteOrder) (width n : Nat) :
    (toBytes order width n).length = width := by
  cases order <;> simp [toBytes]

theorem fromBytes_little_toBytes : ∀ {width n : Nat}, n < 256 ^ width →
    fromBytes .little (toBytes .little width n) = n
  | 0, n, h => by
    simp [toBytes, fromBytes] at *
    omega
  | width + 1, n, h => by
    rw [Nat.pow_succ] at h
    have hrest : fromBytes .little (toBytes .little width (n / 256)) = n / 256 :=
      fromBytes_little_toBytes (Nat.div_lt_of_lt_mul (by omega))
    rw [toBytes_little_succ]
    simp only [fromBytes, List.foldr_cons] at hrest ⊢
    rw [hrest, UInt8.toNat_ofNat']
    omega

theorem toBytes_little_fromBytes : ∀ bytes : Bytes,
    toBytes .little bytes.length (fromBytes .little bytes) = bytes
  | [] => rfl
  | b :: bytes => by
    have hb : b.toNat < 256 := b.toNat_lt
    have hn : fromBytes .little (b :: bytes) = b.toNat + 256 * fromBytes .little bytes := rfl
    rw [List.length_cons, toBytes_little_succ, hn,
      show (b.toNat + 256 * fromBytes .little bytes) % 256 = b.toNat by omega,
      show (b.toNat + 256 * fromBytes .little bytes) / 256 = fromBytes .little bytes by omega,
      toBytes_little_fromBytes bytes, UInt8.ofNat_toNat]

theorem fromBytes_toBytes (order : ByteOrder) {width n : Nat} (h : n < 256 ^ width) :
    fromBytes order (toBytes order width n) = n := by
  cases order with
  | little => exact fromBytes_little_toBytes h
  | big => rw [fromBytes_big, toBytes_big, List.reverse_reverse, fromBytes_little_toBytes h]

theorem toBytes_fromBytes (order : ByteOrder) {width : Nat} {bytes : Bytes}
    (h : bytes.length = width) : toBytes order width (fromBytes order bytes) = bytes := by
  subst h
  cases order with
  | little => exact toBytes_little_fromBytes bytes
  | big =>
    rw [fromBytes_big, toBytes_big, ← List.length_reverse, toBytes_little_fromBytes,
      List.reverse_reverse]

namespace OpType

theorem ofByte_eq_some_iff {b : UInt8} {op : OpType} : ofByte b = some op ↔ b = op.toByte := by
  constructor
  · intro h
    unfold ofByte at h
    split at h
    · next hb => exact Option.some.inj h ▸ hb
    · split at h
      · next hb => exact Option.some.inj h ▸ hb
      · split at h
        · next hb => exact Option.some.inj h ▸ hb
        · cases h
  · rintro rfl
    cases op <;> rfl

end OpType

/-! ## What `deserialize` accepts -/

/-- **No read goes past the end**, whatever the length fields say. -/
theorem deserializeChecked_eq (order : ByteOrder) (data : Bytes) :
    deserializeChecked order data = some (deserialize order data) := by
  unfold deserializeChecked deserialize
  split
  · rfl
  · next hlen =>
    -- the header is there: the reads up to the first length need no further check
    rw [readN_of_le (by omega)]
    simp only [Option.bind_eq_bind, Option.bind_some]
    have hhead : (data.take 1).headD 0 = data.headD 0 := by cases data <;> rfl
    rw [hhead]
    cases OpType.ofByte (data.headD 0) with
    | none => rfl
    | some op =>
      rw [readN_of_le (by simp; omega)]
      simp only [Option.bind_some]
      rw [readN_of_le (by simp; omega)]
      simp only [Option.bind_some]
      rw [readN_of_le (by simp; omega)]
      simp only [Option.bind_some]
      split
      · rfl
      · rw [readN_of_le (by omega)]
        simp only [Option.bind_some]
        rw [readN_of_le (by simp only [List.length_drop] at *; omega)]
        simp only [Option.bind_some]
        split
        · rfl
        · rw [readN_of_le (by omega)]
          rfl

/-- The pieces in which a command stands at the front of some bytes. -/
structure Layout (order : ByteOrder) (cmd : Command) (clientId seqNum klen vlen : Bytes) :
    Prop where
  clientId_length : clientId.length = 8
  seqNum_length : seqNum.length = 8
  klen_length : klen.length = 4
  vlen_length : vlen.length = 4
  clientId : fromBytes order clientId = cmd.clientId
  seqNum : fromBytes order seqNum = cmd.seqNum
  klen : fromBytes order klen = cmd.key.length
  vlen : fromBytes order vlen = cmd.value.length

/-- The reads of `deserialize`, one after the other, find the pieces of the command. -/
theorem layout_of_deserialize {order : ByteOrder} {data : Bytes} {cmd : Command}
    (h : deserialize order data = some cmd) : ∃ clientId seqNum klen vlen rest,
      Layout order cmd clientId seqNum klen vlen ∧
      data = cmd.op.toByte ::
        (clientId ++ (seqNum ++ (klen ++ (cmd.key ++ (vlen ++ (cmd.value ++ rest)))))) := by
  have hchecked := deserializeChecked_eq order data
  rw [h] at hchecked
  unfold deserializeChecked at hchecked
  split at hchecked
  · cases hchecked
  · simp only [Option.bind_eq_bind, Option.bind_eq_some_iff, Prod.exists, readN_eq_some_iff]
      at hchecked
    obtain ⟨opByte, p, ⟨rfl, hopByte⟩, hchecked⟩ := hchecked
    obtain ⟨b, rfl⟩ := List.length_eq_one_iff.mp hopByte
    split at hchecked
    · cases hchecked
    · next op hop =>
      simp only [Option.bind_eq_some_iff, Prod.exists, readN_eq_some_iff] at hchecked
      obtain ⟨clientId, p, ⟨rfl, hclientId⟩, seqNum, p, ⟨rfl, hseqNum⟩, klen, p, ⟨rfl, hklen⟩,
        hchecked⟩ := hchecked
      split at hchecked
      · cases hchecked
      · simp only [Option.bind_eq_some_iff, Prod.exists, readN_eq_some_iff] at hchecked
        obtain ⟨key, p, ⟨rfl, hkey⟩, vlen, p, ⟨rfl, hvlen⟩, hchecked⟩ := hchecked
        split at hchecked
        · cases hchecked
        · simp only [Option.bind_eq_some_iff, Prod.exists, readN_eq_some_iff, Option.some.injEq]
            at hchecked
          obtain ⟨value, rest, ⟨rfl, hvalue⟩, rfl⟩ := hchecked
          refine ⟨clientId, seqNum, klen, vlen, rest,
            ⟨hclientId, hseqNum, hklen, hvlen, rfl, rfl, hkey.symm, hvalue.symm⟩, ?_⟩
          rw [← OpType.ofByte_eq_some_iff.mp hop]
          rfl

/-- In bytes that begin with the pieces of a command `deserialize` finds the command. -/
theorem deserialize_of_layout {order : ByteOrder} {cmd : Command}
    {clientId seqNum klen vlen : Bytes} (h : Layout order cmd clientId seqNum klen vlen)
    (rest : Bytes) :
    deserialize order (cmd.op.toByte ::
      (clientId ++ (seqNum ++ (klen ++ (cmd.key ++ (vlen ++ (cmd.value ++ rest))))))) =
      some cmd := by
  obtain ⟨h1, h2, h3, h4, h5, h6, h7, h8⟩ := h
  rw [← Option.some_inj, ← deserializeChecked_eq]
  unfold deserializeChecked
  have hop : OpType.ofByte cmd.op.toByte = some cmd.op := OpType.ofByte_eq_some_iff.mpr rfl
  have hread : ∀ p : Bytes, readN 1 (cmd.op.toByte :: p) = some ([cmd.op.toByte], p) :=
    fun p => readN_append (x := [cmd.op.toByte]) rfl p
  rw [if_neg (by simp; omega)]
  simp only [hread, Option.bind_eq_bind, Option.bind_some, List.headD_cons, hop, readN_append h1,
    readN_append h2, readN_append h3]
  rw [if_neg (by simp; omega)]
  simp only [readN_append h7.symm, readN_append h4, Option.bind_some]
  rw [if_neg (by simp; omega)]
  simp only [readN_append h8.symm, Option.bind_some, h5, h6]

/-! ## `serialize` against `deserialize` -/

/-- The numbers fit their types, and the strings fit together into one protobuf message. -/
structure Command.Fits (cmd : Command) : Prop where
  clientId : cmd.clientId < 2 ^ 64
  seqNum : cmd.seqNum < 2 ^ 64
  strings : cmd.key.length + cmd.value.length < 2 ^ 31

variable {order : ByteOrder} {cmd : Command}

/-- The pieces that `serialize` copies. -/
theorem Command.Fits.layout (h : cmd.Fits) (order : ByteOrder) :
    Layout order cmd (toBytes order 8 cmd.clientId) (toBytes order 8 cmd.seqNum)
      (toBytes order 4 cmd.key.length) (toBytes order 4 cmd.value.length) where
  clientId_length := length_toBytes ..
  seqNum_length := length_toBytes ..
  klen_length := length_toBytes ..
  vlen_length := length_toBytes ..
  clientId := fromBytes_toBytes order h.clientId
  seqNum := fromBytes_toBytes order h.seqNum
  klen := fromBytes_toBytes order (by have := h.strings; omega)
  vlen := fromBytes_toBytes order (by have := h.strings; omega)

/-- The 32-bit sizes do not wrap, so everything is copied whole. -/
theorem Command.Fits.serialize_eq (h : cmd.Fits) (order : ByteOrder) :
    serialize order cmd = some (cmd.op.toByte :: (toBytes order 8 cmd.clientId ++
      (toBytes order 8 cmd.seqNum ++ (toBytes order 4 cmd.key.length ++ (cmd.key ++
        (toBytes order 4 cmd.value.length ++ cmd.value)))))) := by
  have hstrings := h.strings
  have hk : cmd.key.length % 2 ^ 32 = cmd.key.length := Nat.mod_eq_of_lt (by omega)
  have hv : cmd.value.length % 2 ^ 32 = cmd.value.length := Nat.mod_eq_of_lt (by omega)
  unfold serialize
  simp only [hk, hv]
  rw [if_neg (by omega), List.take_length, List.take_length]
  simp

/-- The pieces of a command are determined by it. -/
theorem Layout.eq_toBytes {clientId seqNum klen vlen : Bytes}
    (h : Layout order cmd clientId seqNum klen vlen) :
    clientId = toBytes order 8 cmd.clientId ∧ seqNum = toBytes order 8 cmd.seqNum ∧
      klen = toBytes order 4 cmd.key.length ∧ vlen = toBytes order 4 cmd.value.length := by
  refine ⟨?_, ?_, ?_, ?_⟩
  · rw [← h.clientId, toBytes_fromBytes order h.clientId_length]
  · rw [← h.seqNum, toBytes_fromBytes order h.seqNum_length]
  · rw [← h.klen, toBytes_fromBytes order h.klen_length]
  · rw [← h.vlen, toBytes_fromBytes order h.vlen_length]

theorem deserialize_iff_isPrefix (h : cmd.Fits) {out : Bytes}
    (hout : serialize order cmd = some out) (data : Bytes) :
    deserialize order data = some cmd ↔ out <+: data := by
  rw [h.serialize_eq, Option.some.injEq] at hout
  subst hout
  constructor
  · intro hd
    obtain ⟨clientId, seqNum, klen, vlen, rest, hlayout, rfl⟩ := layout_of_deserialize hd
    obtain ⟨rfl, rfl, rfl, rfl⟩ := hlayout.eq_toBytes
    exact ⟨rest, by simp⟩
  · rintro ⟨rest, rfl⟩
    simpa using deserialize_of_layout (h.layout order) rest

/--
**The command codec is an exact prefix code.** A command is found exactly in the bytes that begin
with its encoding; so it is read back from its own encoding, no encoding begins with that of another
command, and on no bytes at all does `deserialize` read past the end.
-/
theorem command_codec (order : ByteOrder) (data : Bytes) (h : cmd.Fits) :
    ∃ out, serialize order cmd = some out ∧
      (deserialize order data = some cmd ↔ out <+: data) ∧
      deserialize order out = some cmd ∧
      (∀ cmd' out', cmd'.Fits → serialize order cmd' = some out' → out <+: out' → cmd = cmd') ∧
      deserializeChecked order data = some (deserialize order data) := by
  have hout := h.serialize_eq order
  have hiff := deserialize_iff_isPrefix h hout
  refine ⟨_, hout, hiff data, (hiff _).mpr List.prefix_rfl, ?_, deserializeChecked_eq order data⟩
  intro cmd' out' h' hout' hprefix
  have hfound := (hiff out').mpr hprefix
  have hfound' := (deserialize_iff_isPrefix h' hout' out').mpr List.prefix_rfl
  rw [hfound, Option.some.injEq] at hfound'
  exact hfound'

/-- An `APPEND` with an empty key. -/
def appendToEmptyKey : Command where
  op := .append
  clientId := 7
  seqNum := 1
  key := []
  value := [104, 105]

/-- Three bytes behind the encoding do not matter. -/
theorem command_codec_appendToEmptyKey : ∃ out, serialize .little appendToEmptyKey = some out ∧
    out.length = 27 ∧ deserialize .little (out ++ [1, 2, 3]) = some appendToEmptyKey := by
  have hfits : appendToEmptyKey.Fits := ⟨by decide, by decide, by decide⟩
  obtain ⟨out, hout, hiff, -⟩ :=
    command_codec .little ((serialize .little appendToEmptyKey).getD [] ++ [1, 2, 3]) hfits
  have hlen : ((serialize .little appendToEmptyKey).getD []).length = 27 := by decide
  rw [hout, Option.getD_some] at hiff hlen
  exact ⟨out, hout, hlen, hiff.mpr (List.prefix_append _ _)⟩

end Rafty
