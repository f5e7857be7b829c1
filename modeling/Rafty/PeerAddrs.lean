import Mathlib.Order.Fin.Basic
import Rafty.Infra.SortedMap
import Rafty.Message

/-!
# The `--peers` flag

`AbslParseFlag` and `AbslUnparseFlag` for `PeerAddrs`, the same in `app/raft_node.cpp` and
`app/kv_node.cpp`, and the text that `spawn_raft_node` of `inc/toolings/test_ctrl.hpp` puts on the
command line of a node.

`absl::StrSplit` and `absl::StrJoin` with one character are `List.splitOn` and `List.intercalate`.
Of `absl::SimpleAtoi` only what its users rely on is fixed: it reads back what `std::to_string`
writes. What else it accepts (white space, signs) is left open.
-/

namespace Rafty

open Infra

/-- The text of a string literal. -/
def ascii (text : String) : Bytes := text.toList.map fun c => UInt8.ofNat c.toNat

/-- `','` -/
def comma : UInt8 := 44

/-- `'+'` -/
def plus : UInt8 := 43

/-- A `uint64_t` on the command line. -/
abbrev PeerId := Fin (2 ^ 64)

/-- `PeerAddrs`, and `peer_addrs` of `rafty::Config`: a `std::map<uint64_t, std::string>`. -/
abbrev PeerAddrs := SortedMap PeerId Bytes

/-- `std::to_string(id)`, and `id` written to a stream. -/
def toDecimal (id : PeerId) : Bytes := (Nat.toDigits 10 id.val).map fun c => UInt8.ofNat c.toNat

/-- `absl::SimpleAtoi` on `uint64_t`. -/
structure SimpleAtoi where
  parse : Bytes → Option PeerId
  parse_toDecimal : ∀ id, parse (toDecimal id) = some id

variable (atoi : SimpleAtoi)

/-- One turn of the loop of `AbslParseFlag`: the entry it sets, or `*error`. -/
def parsePeer (part : Bytes) : Except Bytes (PeerId × Bytes) :=
  match part.splitOn plus with
  | [id, addr] =>
    match atoi.parse id with
    | some id => .ok (id, addr)
    | none => .error (ascii "Invalid peer id: " ++ id)
  | _ => .error (ascii "Invalid peer address: " ++ part)

/-- The loop: `*out` after it, and `*error` if it returned `false`. -/
def parsePeers (out : PeerAddrs) : List Bytes → PeerAddrs × Option Bytes
  | [] => (out, none)
  | part :: parts =>
    match parsePeer atoi part with
    | .ok (id, addr) => parsePeers (out.set id addr) parts
    | .error error => (out, some error)

/-- `AbslParseFlag`; no error is the return value `true`. -/
def abslParseFlag (text : Bytes) (out : PeerAddrs) : PeerAddrs × Option Bytes :=
  if text = [] then (out, none) else parsePeers atoi out (text.splitOn comma)

/-- `AbslUnparseFlag`. -/
def abslUnparseFlag (flag : PeerAddrs) : Bytes :=
  let parts := flag.entries.map fun entry => toDecimal entry.1 ++ [plus] ++ entry.2
  if parts = [] then [] else [comma].intercalate parts

/-- The stream of `spawn_raft_node`, without its last character. -/
def peersText (peerAddrs : PeerAddrs) : Bytes :=
  let ss := peerAddrs.entries.flatMap fun entry => toDecimal entry.1 ++ [plus] ++ entry.2 ++ [comma]
  -- `substr(0, n)` takes what there is if `n` is more, as for the empty stream
  ss.take (pred64 ss.length)

/-- `--peers` on the command line of the node; it is left out if the text is empty. -/
def peersFlag (peerAddrs : PeerAddrs) : Option Bytes :=
  if peersText peerAddrs = [] then none else some (peersText peerAddrs)

/-- The peers the node starts with, by the flag or by its default. -/
def startPeers (flag : Option Bytes) : PeerAddrs × Option Bytes :=
  match flag with
  | none => (∅, none)
  | some text => abslParseFlag atoi text ∅

end Rafty
