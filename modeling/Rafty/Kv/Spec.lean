import Rafty.Infra.Machine
import Rafty.Kv.Codec
import Mathlib.Logic.Function.Basic

/-!
# What the key-value service is for

One store that maps every key to a string, at first to the empty one. `Put` replaces the string,
`Append` adds to it, `Get` returns it. This is the sequential object that replicas, servers and
clients are measured against; no entry and no term occurs in it, and sequence numbers only say which
operations of a list are to be done (`effective`).
-/

namespace Rafty

open Infra

/-- A store as a client thinks of it. -/
abbrev PlainStore := Bytes → Bytes

def PlainStore.empty : PlainStore := fun _ => []

/-- One operation: the store after it and the value it returns. -/
def PlainStore.apply (s : PlainStore) (cmd : Command) : PlainStore × Bytes :=
  match cmd.op with
  | .put => (Function.update s cmd.key cmd.value, [])
  | .get => (s, s cmd.key)
  | .append => (Function.update s cmd.key (s cmd.key ++ cmd.value), [])

/-- What the store holds after the operations `xs`. -/
def storeAfter (xs : List (Command × Bytes)) : PlainStore :=
  (feed PlainStore.apply .empty (xs.map Prod.fst)).1

/-- The operations `cmds`, one after the other, with the values the store returns. -/
def PlainStore.history (cmds : List Command) : List (Command × Bytes) :=
  cmds.zip (feed PlainStore.apply .empty cmds).2

/-- Of `cmds` those whose number is above all numbers their client has had so far. -/
def effective (cmds : List Command) : List Command :=
  cmds.foldl (fun done cmd =>
    if done.all fun c => c.clientId = cmd.clientId → c.seqNum < cmd.seqNum then done ++ [cmd]
    else done) []

end Rafty
