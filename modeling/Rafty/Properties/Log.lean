import Rafty.Message
import Rafty.Replication.Log

/-!
# What the loops over the log compute

* `appendLoop_eq_splice` — on a log that matches the leader's, the entry loop of
  `handle_append_entries` is a splice: the log stays as it is if it already continues the leader's,
  and becomes the leader's otherwise.
* `appendLoop_appendLoop` — on any entries at all, running that loop twice is running it once.
* `applyLoop_indices`, `applyLoop_data` — the apply loop yields one result for each index it passes,
  in order, with the command found there; `applyLoop_isSome_iff` says when it stays in the vector.
* `upToDate_iff` — the comparison of `handle_request_vote` is lexicographic in last term and length,
  which is the order of logs of the protocol (`lastLogTerm_eq`).
-/

namespace Rafty

open Replication

/-! ## The order of logs -/

theorem lastLogTerm_eq (log : List Entry) : lastLogTerm log = lastTerm Entry.term log := by
  unfold lastLogTerm lastTerm
  cases log.getLast? <;> rfl

theorem upToDate_iff {log : List Entry} {idx term : Nat} :
    upToDate log idx term = true ↔
      lastLogTerm log < term ∨ lastLogTerm log = term ∧ log.length ≤ idx := by
  unfold upToDate
  split
  · next h => simp [h]
  · next h =>
    split
    · next h' => simp [h'.1, h'.2]
    · next h' =>
      simp only [Bool.false_eq_true, false_iff]
      rintro (hlt | ⟨heq, hle⟩)
      · exact h hlt
      · exact h' ⟨heq.symm, hle⟩

/-! ## The entry loop -/

/-- From the end of the log on, every entry is pushed. -/
theorem appendLoop_length : ∀ (entries log : List Entry),
    appendLoop log log.length entries = log ++ entries
  | [], log => by simp [appendLoop]
  | entry :: rest, log => by
    rw [appendLoop, if_neg (by omega)]
    have h := appendLoop_length rest (log ++ [entry])
    rw [List.length_append, List.length_singleton] at h
    rw [h, List.append_assoc, List.singleton_append]

/-- The terms of two logs decide how far they agree. -/
def Matching (own lead : List Entry) : Prop :=
  ∀ (i : Nat) (e e' : Entry), own[i]? = some e → lead[i]? = some e' → e.term = e'.term →
    own.take (i + 1) = lead.take (i + 1)

theorem Matching.of_isPrefix {own lead lead' : List Entry} (h : Matching own lead')
    (hp : lead <+: lead') : Matching own lead := by
  obtain ⟨rest, rfl⟩ := hp
  intro i e e' he he' hterm
  have hlt := (List.getElem?_eq_some_iff.mp he').1
  have htake := h i e e' he (by rwa [List.getElem?_append_left hlt]) hterm
  rwa [List.take_append_of_le_length (by omega)] at htake

/-- An initial part of the leader's log matches it. -/
theorem matching_of_isPrefix {own lead : List Entry} (hp : own <+: lead) : Matching own lead := by
  obtain ⟨rest, rfl⟩ := hp
  intro i e e' he _ _
  have hlt := (List.getElem?_eq_some_iff.mp he).1
  rw [List.take_append_of_le_length (by omega)]

theorem drop_eq_cons {log rest : List Entry} {idx : Nat} {entry : Entry}
    (h : log.drop idx = entry :: rest) : log[idx]? = some entry ∧ log.drop (idx + 1) = rest := by
  constructor
  · have := congrArg List.head? h
    simpa [List.head?_drop] using this
  · have := congrArg List.tail h
    simpa [List.tail_drop] using this

/-- What is cut off or missing at `idx` is filled with the rest of the leader's log. -/
theorem take_append_drop_eq {lead rest : List Entry} {idx : Nat} {entry : Entry} (own : List Entry)
    (htake : own.take idx = lead.take idx) (hdrop : lead.drop idx = entry :: rest) :
    own.take idx ++ [entry] ++ rest = lead := by
  rw [htake, List.append_assoc, List.singleton_append, ← hdrop, List.take_append_drop]

/--
**The entry loop is a splice.**

Induction on the entries: as long as the terms agree the two logs agree, by matching; at the first
difference, and at the end of the own log, everything that remains is pushed.
-/
theorem appendLoop_eq_splice {lead : List Entry} : ∀ (entries own : List Entry) (idx : Nat),
    lead.drop idx = entries → Matching own lead → idx ≤ own.length → idx ≤ lead.length →
    own.take idx = lead.take idx → appendLoop own idx entries = splice own lead := by
  intro entries
  induction entries with
  | nil =>
    intro own idx hdrop _ _ hlead htake
    have hlen : idx = lead.length := by
      rw [List.drop_eq_nil_iff] at hdrop
      omega
    have hp : lead <+: own := by
      rw [hlen, List.take_length] at htake
      rw [← htake]
      exact List.take_prefix _ _
    rw [appendLoop]
    rcases splice_cases own lead with ⟨-, hs⟩ | ⟨hn, -⟩
    · exact hs.symm
    · exact absurd hp hn
  | cons entry rest ih =>
    intro own idx hdrop hm hown hlead htake
    obtain ⟨hentry, hrest⟩ := drop_eq_cons hdrop
    have hidx := (List.getElem?_eq_some_iff.mp hentry).1
    -- the leader's log, whenever it is not already an initial part of the own one
    have hsplice : ¬lead <+: own → splice own lead = lead := by
      intro hn
      rcases splice_cases own lead with ⟨hp, -⟩ | ⟨-, hs⟩
      · exact absurd hp hn
      · exact hs
    rw [appendLoop]
    split
    · next hge =>
      have hget : own[idx]? = some own[idx] := List.getElem?_eq_getElem (by omega)
      rw [hget, Option.map_some]
      split
      · next hne =>
        have hlen : (own.take idx ++ [entry]).length = idx + 1 := by simp; omega
        have hloop := appendLoop_length rest (own.take idx ++ [entry])
        rw [hlen] at hloop
        rw [hloop, take_append_drop_eq own htake hdrop, hsplice]
        intro hp
        have := hp.getElem hidx
        rw [(List.getElem?_eq_some_iff.mp hentry).2] at this
        exact hne (by rw [this])
      · next heq =>
        have hterm : own[idx].term = entry.term := by simpa using heq
        exact ih own (idx + 1) hrest hm (by omega) (by omega) (hm idx _ _ hget hentry hterm)
    · next hlt =>
      have hlen : own.length = idx := by omega
      have hloop := appendLoop_length rest (own ++ [entry])
      rw [List.length_append, List.length_singleton, hlen] at hloop
      rw [hloop]
      have htake' := take_append_drop_eq own htake hdrop
      rw [← hlen, List.take_length] at htake'
      rw [htake', hsplice]
      intro hp
      have := hp.length_le
      omega

/-! ## The entry loop on any entries -/

/-- The loop does not touch what lies before the index it starts at. -/
theorem appendLoop_getElem?_of_lt : ∀ (entries log : List Entry) (idx : Nat) {i : Nat},
    i < idx → idx ≤ log.length → (appendLoop log idx entries)[i]? = log[i]?
  | [], _, _, _, _, _ => rfl
  | entry :: rest, log, idx, i, hi, hidx => by
    rw [appendLoop]
    split
    · split
      · have hlen : (log.take idx ++ [entry]).length = idx + 1 := by simp; omega
        rw [appendLoop_getElem?_of_lt rest _ _ (Nat.lt_succ_of_lt hi) (Nat.le_of_eq hlen.symm),
          List.getElem?_append_left (by simp; omega), List.getElem?_take_of_lt hi]
      · next hge _ => exact appendLoop_getElem?_of_lt rest _ _ (Nat.lt_succ_of_lt hi) hge
    · have hlen : idx + 1 ≤ (log ++ [entry]).length := by simp; omega
      rw [appendLoop_getElem?_of_lt rest _ _ (Nat.lt_succ_of_lt hi) hlen,
        List.getElem?_append_left (by omega)]

theorem le_length_appendLoop {log : List Entry} {idx : Nat} (entries : List Entry)
    (h : idx ≤ log.length) : idx ≤ (appendLoop log idx entries).length := by
  by_contra hlt
  have hsame := appendLoop_getElem?_of_lt entries log idx (Nat.lt_of_not_le hlt) h
  rw [List.getElem?_eq_none (Nat.le_refl _), eq_comm, List.getElem?_eq_none_iff] at hsame
  omega

/-- From `idx` on, the terms in the log are those of the entries. -/
def HasTerms (log : List Entry) (idx : Nat) (entries : List Entry) : Prop :=
  ∀ (i : Nat) (entry : Entry), entries[i]? = some entry →
    (log[idx + i]?).map Entry.term = some entry.term

theorem hasTerms_cons {log rest : List Entry} {idx : Nat} {entry : Entry} :
    HasTerms log idx (entry :: rest) ↔
      (log[idx]?).map Entry.term = some entry.term ∧ HasTerms log (idx + 1) rest := by
  constructor
  · intro h
    refine ⟨h 0 entry rfl, fun i e he => ?_⟩
    rw [Nat.add_right_comm]
    exact h (i + 1) e he
  · rintro ⟨h0, h⟩ i e he
    cases i with
    | zero =>
      rw [List.getElem?_cons_zero, Option.some.injEq] at he
      exact he ▸ h0
    | succ i =>
      rw [← Nat.add_assoc, Nat.add_right_comm]
      exact h i e he

/-- After the loop the log has the terms of the entries: kept where they agreed, else pushed. -/
theorem appendLoop_hasTerms : ∀ (entries log : List Entry) (idx : Nat), idx ≤ log.length →
    HasTerms (appendLoop log idx entries) idx entries
  | [], _, _, _ => by simp [HasTerms]
  | entry :: rest, log, idx, hidx => by
    -- whichever branch is taken, the loop goes on with the entry's term at `idx`
    have hgo : ∀ log' : List Entry, idx + 1 ≤ log'.length →
        (log'[idx]?).map Entry.term = some entry.term →
        HasTerms (appendLoop log' (idx + 1) rest) idx (entry :: rest) := by
      intro log' hlen hterm
      refine hasTerms_cons.mpr ⟨?_, appendLoop_hasTerms rest log' (idx + 1) hlen⟩
      rw [appendLoop_getElem?_of_lt rest log' (idx + 1) (Nat.lt_succ_self idx) hlen]
      exact hterm
    rw [appendLoop]
    split
    · split
      · have hlen : (log.take idx).length = idx := by simp; omega
        refine hgo _ (by simp; omega) ?_
        rw [List.getElem?_append_right (by omega), hlen]
        simp
      · next hge hterm => exact hgo _ hge (by simpa using hterm)
    · next hlt =>
      have hlen : log.length = idx := by omega
      refine hgo _ (by simp; omega) ?_
      rw [← hlen, List.getElem?_concat_length, Option.map_some]

/-- A log that has the terms of the entries is left as it is. -/
theorem appendLoop_of_hasTerms : ∀ (entries log : List Entry) (idx : Nat),
    HasTerms log idx entries → appendLoop log idx entries = log
  | [], _, _, _ => rfl
  | entry :: rest, log, idx, h => by
    obtain ⟨hterm, hrest⟩ := hasTerms_cons.mp h
    obtain ⟨e, he, -⟩ := Option.map_eq_some_iff.mp hterm
    have hge : log.length ≥ idx + 1 := (List.getElem?_eq_some_iff.mp he).1
    rw [appendLoop, if_pos hge, if_neg (not_not.mpr hterm)]
    exact appendLoop_of_hasTerms rest log (idx + 1) hrest

/-- Running the loop again on its own result changes nothing. -/
theorem appendLoop_appendLoop {log : List Entry} {idx : Nat} (entries : List Entry)
    (h : idx ≤ log.length) :
    appendLoop (appendLoop log idx entries) idx entries = appendLoop log idx entries :=
  appendLoop_of_hasTerms _ _ _ (appendLoop_hasTerms _ _ _ h)

/-! ## A request against a log -/

theorem logMatches_iff {log : List Entry} {request : AppendEntriesRequest} :
    logMatches log request = true ↔ request.prevLogIndex ≤ log.length ∧
      (request.prevLogIndex > 0 →
        (log[request.prevLogIndex - 1]?).map Entry.term = some request.prevLogTerm) := by
  unfold logMatches
  split
  · next hgt => simp; omega
  · next hle =>
    split
    · next hne => simp [hne.1, hne.2]
    · next hnot =>
      refine ⟨fun _ => ⟨Nat.not_lt.mp hle, fun hpos => ?_⟩, fun _ => rfl⟩
      by_contra hne
      exact hnot ⟨hpos, hne⟩

/-- The previous entry of a request lies in the log. -/
theorem prev_le_of_logMatches {log : List Entry} {request : AppendEntriesRequest}
    (h : logMatches log request = true) : request.prevLogIndex ≤ log.length :=
  (logMatches_iff.mp h).1

theorem prevLogTerm_of_logMatches {log : List Entry} {request : AppendEntriesRequest}
    (h : logMatches log request = true) (hpos : request.prevLogIndex > 0) :
    (log[request.prevLogIndex - 1]?).map Entry.term = some request.prevLogTerm :=
  (logMatches_iff.mp h).2 hpos

/-- The check of the previous entry looks at the part of the log that the loop leaves alone. -/
theorem logMatches_appendLoop {log : List Entry} {request : AppendEntriesRequest}
    (h : logMatches log request = true) (entries : List Entry) :
    logMatches (appendLoop log request.prevLogIndex entries) request = true := by
  obtain ⟨hle, hterm⟩ := logMatches_iff.mp h
  refine logMatches_iff.mpr ⟨?_, fun hpos => ?_⟩
  · exact le_length_appendLoop entries hle
  · rw [appendLoop_getElem?_of_lt entries log _ (Nat.sub_one_lt_of_lt hpos) hle]
    exact hterm hpos

/-- The request carries all of `lead` after the previous entry, and the term of that entry. -/
structure CutFrom (lead : List Entry) (request : AppendEntriesRequest) : Prop where
  prev_le : request.prevLogIndex ≤ lead.length
  entries : request.entries = lead.drop request.prevLogIndex
  prevLogTerm : request.prevLogIndex > 0 →
    (lead[request.prevLogIndex - 1]?).map Entry.term = some request.prevLogTerm

section CutFrom

variable {own lead : List Entry} {request : AppendEntriesRequest}

/-- What the request covers is the whole log it was cut from. -/
theorem CutFrom.upTo_eq_length (h : CutFrom lead request) :
    request.prevLogIndex + request.entries.length = lead.length := by
  have := h.prev_le
  rw [h.entries, List.length_drop]
  omega

/-- The entry loop on a request that passed the check of its previous entry. -/
theorem CutFrom.appendLoop_eq_splice (h : CutFrom lead request) (hm : Matching own lead)
    (hprev : logMatches own request = true) :
    appendLoop own request.prevLogIndex request.entries = splice own lead := by
  refine Rafty.appendLoop_eq_splice _ _ _ h.entries.symm hm (prev_le_of_logMatches hprev)
    h.prev_le ?_
  by_cases hpos : request.prevLogIndex > 0
  · obtain ⟨e, he, hterm⟩ := Option.map_eq_some_iff.mp (prevLogTerm_of_logMatches hprev hpos)
    obtain ⟨e', he', hterm'⟩ := Option.map_eq_some_iff.mp (h.prevLogTerm hpos)
    have htake := hm _ e e' he he' (hterm.trans hterm'.symm)
    rwa [Nat.sub_add_cancel hpos] at htake
  · rw [show request.prevLogIndex = 0 by omega]
    simp

end CutFrom

/-! ## The apply loop -/

theorem applyLoop_isSome_iff {log : List Entry} : ∀ {n k : Nat},
    (applyLoop log k n).isSome = true ↔ n = 0 ∨ k + n ≤ log.length
  | 0, k => by simp [applyLoop]
  | n + 1, k => by
    rw [applyLoop]
    cases hk : log[k]? with
    | none =>
      have := List.getElem?_eq_none_iff.mp hk
      simp
      omega
    | some entry =>
      have hlt := (List.getElem?_eq_some_iff.mp hk).1
      have ih : (applyLoop log (k + 1) n).isSome = true ↔ n = 0 ∨ k + 1 + n ≤ log.length :=
        applyLoop_isSome_iff
      cases hr : applyLoop log (k + 1) n with
      | none =>
        rw [hr] at ih
        simp at ih ⊢
        omega
      | some rest =>
        rw [hr] at ih
        simp at ih ⊢
        omega

/-- One more turn of the loop. -/
theorem applyLoop_succ {log : List Entry} {n k : Nat} {results : List ApplyResult}
    (h : applyLoop log k (n + 1) = some results) :
    ∃ entry rest, log[k]? = some entry ∧ applyLoop log (k + 1) n = some rest ∧
      results = { valid := true, data := entry.command, index := k + 1 } :: rest := by
  rw [applyLoop] at h
  cases hk : log[k]? with
  | none => simp [hk] at h
  | some entry =>
    cases hr : applyLoop log (k + 1) n with
    | none => simp [hk, hr] at h
    | some rest =>
      simp only [hk, hr, Option.bind_eq_bind, Option.bind_some, Option.some.injEq] at h
      exact ⟨entry, rest, rfl, rfl, h.symm⟩

theorem applyLoop_indices {log : List Entry} : ∀ {n k : Nat} {results : List ApplyResult},
    applyLoop log k n = some results → results.map ApplyResult.index = List.range' (k + 1) n
  | 0, k, results, h => by
    simp only [applyLoop, Option.some.injEq] at h
    subst h
    rfl
  | n + 1, k, results, h => by
    obtain ⟨entry, rest, -, hr, rfl⟩ := applyLoop_succ h
    rw [List.map_cons, applyLoop_indices hr, List.range'_succ]

/-- Every result carries the command at its index. -/
theorem applyLoop_data {log : List Entry} : ∀ {n k : Nat} {results : List ApplyResult},
    applyLoop log k n = some results → ∀ r ∈ results,
      k < r.index ∧ r.index ≤ k + n ∧ ∃ entry, log[r.index - 1]? = some entry ∧
        r.data = entry.command
  | 0, k, results, h => by
    simp only [applyLoop, Option.some.injEq] at h
    subst h
    simp
  | n + 1, k, results, h => by
    obtain ⟨entry, rest, hk, hr, rfl⟩ := applyLoop_succ h
    intro r hmem
    rcases List.mem_cons.mp hmem with rfl | hmem
    · exact ⟨by simp, by simp, entry, by simpa using hk, rfl⟩
    · obtain ⟨h1, h2, h3⟩ := applyLoop_data hr r hmem
      exact ⟨by omega, by omega, h3⟩

/-- The results that the entries of a log are applied as. -/
def logResults (log : List Entry) : List ApplyResult :=
  log.mapIdx fun k entry => { valid := true, data := entry.command, index := k + 1 }

/-- What is applied of a log depends on that part of it. -/
theorem take_logResults (log : List Entry) (n : Nat) :
    (logResults log).take n = logResults (log.take n) := by
  apply List.ext_getElem?
  intro k
  simp only [logResults, List.getElem?_take, List.getElem?_mapIdx]
  split <;> simp

theorem map_data_logResults (log : List Entry) :
    (logResults log).map ApplyResult.data = log.map Entry.command := by
  apply List.ext_getElem?
  intro k
  simp [logResults, Function.comp_def]

theorem valid_of_mem_logResults {log : List Entry} {r : ApplyResult} (h : r ∈ logResults log) :
    r.valid = true := by
  obtain ⟨k, hk, rfl⟩ := List.mem_mapIdx.mp h
  rfl

/-- **The apply loop** takes the next results of the log. -/
theorem applyLoop_eq {log : List Entry} : ∀ {n k : Nat} {results : List ApplyResult},
    applyLoop log k n = some results → results = ((logResults log).drop k).take n
  | 0, k, results, h => by
    simp only [applyLoop, Option.some.injEq] at h
    simp [← h]
  | n + 1, k, results, h => by
    obtain ⟨entry, rest, hk, hr, rfl⟩ := applyLoop_succ h
    obtain ⟨hlt, rfl⟩ := List.getElem?_eq_some_iff.mp hk
    have hlt' : k < (logResults log).length := by simpa [logResults] using hlt
    rw [List.drop_eq_getElem_cons hlt', List.take_succ_cons, ← applyLoop_eq hr]
    simp [logResults]

theorem valid_of_applyLoop {log : List Entry} {k n : Nat} {results : List ApplyResult}
    (h : applyLoop log k n = some results) : ∀ r ∈ results, r.valid = true := by
  intro r hr
  rw [applyLoop_eq h] at hr
  exact valid_of_mem_logResults (List.mem_of_mem_drop (List.mem_of_mem_take hr))

end Rafty
