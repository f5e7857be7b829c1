import Rafty.Infra.Cursor
import Rafty.Message

/-!
# The encoding of commands

`KvServer::serialize` and `KvServer::deserialize` of `inc/kv/kv_server.hpp`. Numbers are copied from
and to memory as they stand there, so the encoding depends on the byte order of the host.
-/

namespace Rafty

open Infra

inductive ByteOrder where
  | little
  | big
deriving DecidableEq, Repr

/-- The unsigned number that stands in these bytes. -/
def fromBytes : ByteOrder → Bytes → Nat
  | .little, bytes => bytes.foldr (fun b n => b.toNat + 256 * n) 0
  | .big, bytes => bytes.foldl (fun n b => 256 * n + b.toNat) 0

/-- The bytes of an unsigned number of `width` bytes. -/
def toBytes (order : ByteOrder) (width n : Nat) : Bytes :=
  let bytes := (List.range width).map fun i => UInt8.ofNat (n / 256 ^ i % 256)
  match order with
  | .little => bytes
  | .big => bytes.reverse

/-- `KvServer::OpType`. -/
inductive OpType where
  | put
  | get
  | append
deriving DecidableEq, Repr

namespace OpType

def toByte : OpType → UInt8
  | .put => 0
  | .get => 1
  | .append => 2

/-- `none` for `op_byte > 2`. -/
def ofByte (b : UInt8) : Option OpType :=
  if b = 0 then some .put
  else if b = 1 then some .get
  else if b = 2 then some .append
  else none

end OpType

/-- What the fields of a request say, and what `deserialize` finds in an entry. -/
structure Command where
  op : OpType
  clientId : Nat
  seqNum : Nat
  key : Bytes
  value : Bytes
deriving DecidableEq, Repr

/--
`serialize`. The size of the buffer is computed in 32 bits; `none` is a buffer that is too small for
what is copied into it.
-/
def serialize (order : ByteOrder) (cmd : Command) : Option Bytes :=
  let klen := cmd.key.length % 2 ^ 32
  let vlen := cmd.value.length % 2 ^ 32
  let total := (1 + 8 + 8 + 4 + klen + 4 + vlen) % 2 ^ 32
  if total < 1 + 8 + 8 + 4 + klen + 4 + vlen then none
  else some (cmd.op.toByte :: toBytes order 8 cmd.clientId ++ toBytes order 8 cmd.seqNum ++
    toBytes order 4 klen ++ cmd.key.take klen ++ toBytes order 4 vlen ++ cmd.value.take vlen)

/-- `deserialize`; what `p` points to is what is left of `data`. -/
def deserialize (order : ByteOrder) (data : Bytes) : Option Command :=
  if data.length < 1 + 8 + 8 + 4 + 4 then none
  else do
    let op ← OpType.ofByte (data.headD 0)
    let p := data.drop 1
    let clientId := fromBytes order (p.take 8)
    let p := p.drop 8
    let seqNum := fromBytes order (p.take 8)
    let p := p.drop 8
    let klen := fromBytes order (p.take 4)
    let p := p.drop 4
    if klen + 4 > p.length then none
    else
      let key := p.take klen
      let p := p.drop klen
      let vlen := fromBytes order (p.take 4)
      let p := p.drop 4
      if vlen > p.length then none
      else some {
        op := op, clientId := clientId, seqNum := seqNum, key := key, value := p.take vlen }

/--
`deserialize` with its reads made visible: every `memcpy` from `p` and every `assign` is a `readN`,
and the outer `none` is one that goes past `end`.
-/
def deserializeChecked (order : ByteOrder) (data : Bytes) : Option (Option Command) :=
  if data.length < 1 + 8 + 8 + 4 + 4 then some none
  else do
    let (opByte, p) ← readN 1 data
    match OpType.ofByte (opByte.headD 0) with
    | none => some none
    | some op =>
      let (clientId, p) ← readN 8 p
      let (seqNum, p) ← readN 8 p
      let (klen, p) ← readN 4 p
      if fromBytes order klen + 4 > p.length then some none
      else
        let (key, p) ← readN (fromBytes order klen) p
        let (vlen, p) ← readN 4 p
        if fromBytes order vlen > p.length then some none
        else
          let (value, _) ← readN (fromBytes order vlen) p
          some (some {
            op := op, clientId := fromBytes order clientId, seqNum := fromBytes order seqNum,
            key := key, value := value })

end Rafty
