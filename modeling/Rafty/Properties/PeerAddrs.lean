import Rafty.PeerAddrs

/-!
# Peer lists survive the command line

`AbslUnparseFlag` and `spawn_raft_node` write the same text (`peersText_eq`), and `AbslParseFlag`
reads the map back from it as long as no address holds one of the two separators
(`abslParseFlag_unparse`). The addresses of a map that `AbslParseFlag` itself has read hold none
(`separated_of_parse`), which is the footing of the round trip of the flag.
-/

namespace Rafty

open Infra

/-! ## Texts without separators -/

theorem not_mem_of_mem_splitOn {α : Type*} [DecidableEq α] {a : α} : ∀ {xs piece : List α},
    piece ∈ xs.splitOn a → a ∉ piece
  | [], piece, h => by simp_all
  | x :: xs, piece, h => by
    rw [List.splitOn_cons_eq_if_modifyHead] at h
    split at h
    · rcases List.mem_cons.mp h with rfl | h
      · exact List.not_mem_nil
      · exact not_mem_of_mem_splitOn h
    · next hx =>
      cases hs : xs.splitOn a with
      | nil => exact absurd hs (List.splitOn_ne_nil a xs)
      | cons first rest =>
        have hall : ∀ p ∈ first :: rest, a ∉ p := fun p hp =>
          not_mem_of_mem_splitOn (hs ▸ hp)
        rw [hs, List.modifyHead_cons] at h
        rcases List.mem_cons.mp h with rfl | h
        · have hne : a ≠ x := fun he => hx (beq_iff_eq.mpr he.symm)
          exact List.not_mem_cons_of_ne_of_not_mem hne (hall first List.mem_cons_self)
        · exact hall piece (List.mem_cons_of_mem _ h)

theorem toNat_of_mem_toDigits {n : Nat} {c : Char} (h : c ∈ Nat.toDigits 10 n) :
    48 ≤ c.toNat ∧ c.toNat ≤ 57 := by
  have hdigit := Nat.isDigit_of_mem_toDigits (by decide) (by decide) h
  simp only [Char.isDigit, Bool.and_eq_true, decide_eq_true_eq] at hdigit
  exact hdigit

/-- A number is written with digits only. -/
theorem isDigit_of_mem_toDecimal {id : PeerId} {b : UInt8} (h : b ∈ toDecimal id) :
    48 ≤ b.toNat ∧ b.toNat ≤ 57 := by
  obtain ⟨c, hc, rfl⟩ := List.mem_map.mp h
  have hdigit := toNat_of_mem_toDigits hc
  rw [UInt8.toNat_ofNat']
  omega

theorem not_mem_toDecimal (id : PeerId) : comma ∉ toDecimal id ∧ plus ∉ toDecimal id := by
  refine ⟨fun h => ?_, fun h => ?_⟩ <;> exact absurd (isDigit_of_mem_toDecimal h) (by decide)

/-- No address of the map holds a separator. -/
def Separated (m : PeerAddrs) : Prop := ∀ entry ∈ m.entries, comma ∉ entry.2 ∧ plus ∉ entry.2

/-! ## Reading -/

section Parse

variable {atoi : SimpleAtoi}

/-- What one turn of the loop sets. -/
theorem parsePeer_eq_ok {part : Bytes} {entry : PeerId × Bytes}
    (h : parsePeer atoi part = .ok entry) : ∃ id, part.splitOn plus = [id, entry.2] := by
  unfold parsePeer at h
  split at h
  · next id addr hsplit =>
    split at h
    · obtain rfl := Except.ok.inj h
      exact ⟨id, hsplit⟩
    · cases h
  · cases h

/-- An address that was read holds no separator. -/
theorem parsePeer_separated {part : Bytes} {entry : PeerId × Bytes}
    (h : parsePeer atoi part = .ok entry) (hpart : comma ∉ part) :
    comma ∉ entry.2 ∧ plus ∉ entry.2 := by
  obtain ⟨id, hsplit⟩ := parsePeer_eq_ok h
  have haddr : entry.2 ∈ part.splitOn plus := by simp [hsplit]
  refine ⟨fun hmem => hpart ?_, not_mem_of_mem_splitOn haddr⟩
  -- the pieces are parts of the text
  have htext : [plus].intercalate (part.splitOn plus) = part := List.intercalate_splitOn plus
  rw [← htext, hsplit]
  simp [List.intercalate, hmem]

theorem parsePeers_separated : ∀ {parts : List Bytes} {out m : PeerAddrs},
    parsePeers atoi out parts = (m, none) → (∀ part ∈ parts, comma ∉ part) → Separated out →
    Separated m
  | [], out, m, h, _, hout => by
    rw [parsePeers, Prod.mk.injEq] at h
    exact h.1 ▸ hout
  | part :: parts, out, m, h, hparts, hout => by
    rw [List.forall_mem_cons] at hparts
    rw [parsePeers] at h
    split at h
    · next id addr hpeer =>
      refine parsePeers_separated h hparts.2 fun entry hentry => ?_
      rcases SortedMap.mem_of_mem_set hentry with rfl | hentry
      · exact parsePeer_separated hpeer hparts.1
      · exact hout entry hentry
    · simp at h

/-- A map that `AbslParseFlag` has read holds no separator. -/
theorem separated_of_parse {text : Bytes} {m : PeerAddrs}
    (h : abslParseFlag atoi text ∅ = (m, none)) : Separated m := by
  have hempty : Separated ∅ := by simp [Separated]
  unfold abslParseFlag at h
  split at h
  · rw [Prod.mk.injEq] at h
    exact h.1 ▸ hempty
  · exact parsePeers_separated h (fun part hpart => not_mem_of_mem_splitOn hpart) hempty

end Parse

/-! ## Writing and reading back -/

/-- The text of one entry. -/
def entryText (entry : PeerId × Bytes) : Bytes := toDecimal entry.1 ++ [plus] ++ entry.2

theorem comma_not_mem_entryText {entry : PeerId × Bytes} (h : comma ∉ entry.2) :
    comma ∉ entryText entry := by
  simp only [entryText, List.mem_append, List.mem_singleton, not_or]
  exact ⟨⟨(not_mem_toDecimal entry.1).1, by decide⟩, h⟩

variable (atoi : SimpleAtoi)

theorem parsePeer_entryText {entry : PeerId × Bytes} (h : plus ∉ entry.2) :
    parsePeer atoi (entryText entry) = .ok entry := by
  have hsplit : (entryText entry).splitOn plus = [toDecimal entry.1, entry.2] := by
    rw [entryText, List.append_assoc, List.singleton_append,
      List.splitOn_append_cons_self_of_not_mem (not_mem_toDecimal entry.1).2,
      List.splitOn_eq_singleton h]
  unfold parsePeer
  rw [hsplit]
  simp only [atoi.parse_toDecimal]

/-- The loop sets the entries one after the other. -/
theorem parsePeers_entryText : ∀ (entries : List (PeerId × Bytes)) (out : PeerAddrs),
    (∀ entry ∈ entries, plus ∉ entry.2) →
    parsePeers atoi out (entries.map entryText) =
      (entries.foldl (fun t entry => t.set entry.1 entry.2) out, none)
  | [], _, _ => rfl
  | entry :: entries, out, h => by
    rw [List.forall_mem_cons] at h
    rw [List.map_cons, parsePeers, parsePeer_entryText atoi h.1]
    exact parsePeers_entryText entries _ h.2

theorem abslUnparseFlag_of_ne_nil {m : PeerAddrs} (h : m.entries ≠ []) :
    abslUnparseFlag m = [comma].intercalate (m.entries.map entryText) :=
  if_neg (by simpa using h)

/-- **What `AbslUnparseFlag` writes is read back.** -/
theorem abslParseFlag_unparse {m : PeerAddrs} (h : Separated m) :
    abslParseFlag atoi (abslUnparseFlag m) ∅ = (m, none) := by
  by_cases hnil : m.entries = []
  · obtain rfl : m = ∅ := SortedMap.ext hnil
    rfl
  · have hsplit : ([comma].intercalate (m.entries.map entryText)).splitOn comma =
        m.entries.map entryText := by
      refine List.splitOn_intercalate comma (fun part hpart => ?_) (by simpa using hnil)
      obtain ⟨entry, hentry, rfl⟩ := List.mem_map.mp hpart
      exact comma_not_mem_entryText (h entry hentry).1
    have hne : [comma].intercalate (m.entries.map entryText) ≠ [] := by
      intro hempty
      have hmem : [] ∈ m.entries.map entryText := by
        rw [← hsplit, hempty]
        exact List.mem_singleton_self _
      obtain ⟨entry, -, hentry⟩ := List.mem_map.mp hmem
      simp [entryText] at hentry
    rw [abslUnparseFlag_of_ne_nil hnil, abslParseFlag, if_neg hne, hsplit,
      parsePeers_entryText atoi _ _ fun entry hentry => (h entry hentry).2,
      SortedMap.foldl_set_entries]

/-- The stream of `spawn_raft_node` is the text of the flag with one separator too many. -/
theorem stream_eq : ∀ {entries : List (PeerId × Bytes)}, entries ≠ [] →
    entries.flatMap (fun entry => entryText entry ++ [comma]) =
      [comma].intercalate (entries.map entryText) ++ [comma]
  | [entry], _ => by simp [List.intercalate]
  | entry :: next :: entries, _ => by
    rw [List.flatMap_cons, stream_eq (List.cons_ne_nil next entries)]
    simp [List.intercalate_cons_cons]

theorem peersText_eq (m : PeerAddrs) : peersText m = abslUnparseFlag m := by
  by_cases hnil : m.entries = []
  · obtain rfl : m = ∅ := SortedMap.ext hnil
    rfl
  · have hstream := stream_eq hnil
    rw [abslUnparseFlag_of_ne_nil hnil, peersText]
    simp only [entryText] at hstream ⊢
    rw [hstream]
    have hpred : ∀ n, pred64 (n + 1) = n := fun n => rfl
    rw [List.length_append, List.length_singleton, hpred, List.take_left]

/--
**Peer lists survive the command line.** A flag that was accepted is accepted again as it is written
out, with the same map; and the peers that `spawn_raft_node` puts on the command line are the peers
the node starts with, if no address holds a separator.
-/
theorem peer_addrs_round_trip :
    (∀ text m, abslParseFlag atoi text ∅ = (m, none) →
      abslParseFlag atoi (abslUnparseFlag m) ∅ = (m, none)) ∧
    ∀ peerAddrs, Separated peerAddrs →
      abslParseFlag atoi (peersText peerAddrs) ∅ = (peerAddrs, none) ∧
      startPeers atoi (peersFlag peerAddrs) = (peerAddrs, none) := by
  refine ⟨fun text m h => abslParseFlag_unparse atoi (separated_of_parse h), fun m h => ?_⟩
  have hparse : abslParseFlag atoi (peersText m) ∅ = (m, none) := by
    rw [peersText_eq]
    exact abslParseFlag_unparse atoi h
  refine ⟨hparse, ?_⟩
  unfold peersFlag
  split
  · next hempty =>
    -- an empty text is no flag, and the default is what the empty text stands for
    rw [hempty] at hparse
    exact hparse
  · exact hparse

/-! ## A reader of numbers -/

/-- The characters `absl::SimpleAtoi` skips at both ends. -/
def isSpace (b : UInt8) : Bool := b.toNat = 32 ∨ 9 ≤ b.toNat ∧ b.toNat ≤ 13

def stripSpace (text : Bytes) : Bytes :=
  ((text.dropWhile isSpace).reverse.dropWhile isSpace).reverse

/-- Digits with white space around them, up to `2 ^ 64 - 1`. -/
def parseDecimal (text : Bytes) : Option PeerId :=
  let digits := (stripSpace text).map fun b => Char.ofNat b.toNat
  if digits ≠ [] ∧ digits.all Char.isDigit then
    let n := Nat.ofDigitChars 10 digits 0
    if h : n < 2 ^ 64 then some ⟨n, h⟩ else none
  else none

theorem stripSpace_toDecimal (id : PeerId) : stripSpace (toDecimal id) = toDecimal id := by
  have hspace : ∀ b : UInt8, 48 ≤ b.toNat ∧ b.toNat ≤ 57 → isSpace b = false := by
    intro b hb
    rw [isSpace, decide_eq_false_iff_not]
    omega
  have hdrop : ∀ l : Bytes, (∀ b ∈ l, isSpace b = false) → l.dropWhile isSpace = l := by
    intro l h
    cases l with
    | nil => rfl
    | cons b rest => simp [h b List.mem_cons_self]
  have hall : ∀ b ∈ toDecimal id, isSpace b = false := fun b hb =>
    hspace b (isDigit_of_mem_toDecimal hb)
  rw [stripSpace, hdrop _ hall, hdrop _ fun b hb => hall b (List.mem_reverse.mp hb),
    List.reverse_reverse]

theorem parseDecimal_toDecimal (id : PeerId) : parseDecimal (toDecimal id) = some id := by
  have hdigits : (toDecimal id).map (fun b => Char.ofNat b.toNat) = Nat.toDigits 10 id.val := by
    rw [toDecimal, List.map_map]
    refine (List.map_congr_left fun c hc => ?_).trans (List.map_id _)
    have := toNat_of_mem_toDigits hc
    rw [Function.comp_apply, UInt8.toNat_ofNat', Nat.mod_eq_of_lt (by omega), Char.ofNat_toNat]
    rfl
  unfold parseDecimal
  simp only [stripSpace_toDecimal, hdigits, Nat.ofDigitChars_ten_toDigits]
  rw [if_pos, dif_pos id.isLt]
  refine ⟨Nat.toDigits_ne_nil, List.all_eq_true.mpr fun c hc => ?_⟩
  exact Nat.isDigit_of_mem_toDigits (by decide) (by decide) hc

def decimalAtoi : SimpleAtoi := ⟨parseDecimal, parseDecimal_toDecimal⟩

/-- Ids out of order, one of them twice and once with a blank, and an empty address. -/
theorem peer_addrs_round_trip_repeated : ∃ m,
    abslParseFlag decimalAtoi (ascii "7+h:2, 3+,7+h:1") ∅ = (m, none) ∧
      abslUnparseFlag m = ascii "3+,7+h:1" ∧
      abslParseFlag decimalAtoi (abslUnparseFlag m) ∅ = (m, none) ∧
      startPeers decimalAtoi (peersFlag m) = (m, none) := by
  have hparse : abslParseFlag decimalAtoi (ascii "7+h:2, 3+,7+h:1") ∅ =
      (⟨[(3, []), (7, ascii "h:1")], by decide⟩, none) := by decide +kernel
  obtain ⟨hflag, hspawn⟩ := peer_addrs_round_trip decimalAtoi
  exact ⟨_, hparse, by decide +kernel, hflag _ _ hparse, (hspawn _ (separated_of_parse hparse)).2⟩

end Rafty
