import Scriptlet.Proofs.Parse.Completeness

/-!
# Positions in a token list

The parser holds the tokens that are left, and its complaints hold the tokens that were left when
they arose. All of these are suffixes of the tokens in front of the first end token, so that each
stands for a position in the token list: the position of its first token, or of the end token if
there is none.

## Main definitions

* `EndsInEof` — token lists that can be parsed
* `Parse.beforeEnd` — the tokens in front of the first end token
* `Parse.position` — the position that the tokens that are left stand for

## Main results

* `Parse.drop_position`, `Parse.getElem?_position` — what is left is what stands at its position
* `Parse.exists_parseTokens?` — a token list that ends in an end token is parsed up to its first
* `Parse.exists_parseTokens?_append` — so it is with other tokens in front of it
-/

namespace Scriptlet

/-- The last token is an end token; there may be end tokens in front of it. -/
def EndsInEof (tokens : List Token) : Prop := ∃ last ∈ tokens.getLast?, last.kind = .eof

namespace Parse

/-- The tokens in front of the first end token. -/
def beforeEnd (tokens : List Token) : List Token := tokens.takeWhile (·.kind ≠ .eof)

/-- The position in `tokens` of the first token that is left. -/
def position (tokens rest : List Token) : Nat := (beforeEnd tokens).length - rest.length

variable {tokens rest : List Token} {t : Token}

theorem kind_ne_eof_of_mem_beforeEnd (h : t ∈ beforeEnd tokens) : t.kind ≠ .eof := by
  have hall := List.all_eq_true.1 (List.all_takeWhile (p := fun t : Token => t.kind ≠ .eof)) t h
  simpa using hall

theorem beforeEnd_append_dropWhile (tokens : List Token) :
    beforeEnd tokens ++ tokens.dropWhile (·.kind ≠ .eof) = tokens :=
  List.takeWhile_append_dropWhile

theorem getElem?_of_lt {i : Nat} (h : i < (beforeEnd tokens).length) :
    tokens[i]? = (beforeEnd tokens)[i]? := by
  calc tokens[i]?
      = (beforeEnd tokens ++ tokens.dropWhile (·.kind ≠ .eof))[i]? := by
        rw [beforeEnd_append_dropWhile]
    _ = (beforeEnd tokens)[i]? := List.getElem?_append_left h

/-- Behind the tokens in front of the first end token stands an end token. -/
theorem exists_eof (h : EndsInEof tokens) :
    ∃ last, tokens[(beforeEnd tokens).length]? = some last ∧ last.kind = .eof := by
  have hsplit := beforeEnd_append_dropWhile tokens
  have hnot := List.head?_dropWhile_not (fun t : Token => decide (t.kind ≠ .eof)) tokens
  cases hdrop : tokens.dropWhile (·.kind ≠ .eof) with
  | nil =>
    obtain ⟨last, hlast, hkind⟩ := h
    have hmem : last ∈ tokens := List.mem_of_getLast? hlast
    rw [← hsplit, hdrop, List.append_nil] at hmem
    exact absurd hkind (kind_ne_eof_of_mem_beforeEnd hmem)
  | cons last rest =>
    rw [hdrop] at hsplit hnot
    refine ⟨last, ?_, by simpa using hnot⟩
    calc tokens[(beforeEnd tokens).length]?
        = (beforeEnd tokens ++ last :: rest)[(beforeEnd tokens).length]? := by rw [hsplit]
      _ = some last := by simp

/-! ### Positions of suffixes -/

theorem position_le (tokens rest : List Token) : position tokens rest ≤ (beforeEnd tokens).length :=
  Nat.sub_le _ _

@[simp]
theorem position_nil (tokens : List Token) : position tokens [] = (beforeEnd tokens).length := rfl

@[simp]
theorem position_beforeEnd (tokens : List Token) : position tokens (beforeEnd tokens) = 0 :=
  Nat.sub_self _

theorem drop_position (h : rest <:+ beforeEnd tokens) :
    (beforeEnd tokens).drop (position tokens rest) = rest :=
  (List.suffix_iff_eq_drop.1 h).symm

/-- The next token stands at the position of what is left. -/
theorem getElem?_position (h : t :: rest <:+ beforeEnd tokens) :
    tokens[position tokens (t :: rest)]? = some t := by
  have hlt : position tokens (t :: rest) < (beforeEnd tokens).length :=
    Nat.sub_lt (Nat.lt_of_lt_of_le (Nat.succ_pos _) h.length_le) (Nat.succ_pos _)
  rw [getElem?_of_lt hlt, ← List.head?_drop, drop_position h]
  rfl

/-- Taking a token moves on by one. -/
theorem position_cons (h : t :: rest <:+ beforeEnd tokens) :
    position tokens rest = position tokens (t :: rest) + 1 := by
  have hle : rest.length + 1 ≤ (beforeEnd tokens).length := h.length_le
  rw [position, position, List.length_cons]
  omega

theorem position_lt_position {us : List Token} (h : us <:+ beforeEnd tokens) :
    position tokens us < position tokens rest ↔ rest.length < us.length := by
  have hle := h.length_le
  rw [position, position]
  omega

theorem position_inj {us : List Token} (h : rest <:+ beforeEnd tokens)
    (h' : us <:+ beforeEnd tokens) :
    position tokens rest = position tokens us ↔ rest.length = us.length := by
  have hle := h.length_le
  have hle' := h'.length_le
  rw [position, position]
  omega

/-! ### Parsing up to the first end token -/

/-- A token list that ends in an end token is parsed up to its first, which stands for the end in
diagnostics. -/
theorem exists_parseTokens? (h : EndsInEof tokens) :
    ∃ statements s last, program depthLimit (.start (beforeEnd tokens)) = .ok statements s ∧
      tokens[(beforeEnd tokens).length]? = some last ∧ last.kind = .eof ∧
      parseTokens? tokens =
        some ⟨statements, s.complaints.reverse.map (·.diagnostic last)⟩ := by
  obtain ⟨last, hlast, hkind⟩ := exists_eof h
  obtain ⟨statements, s, hrun⟩ := neverAborts_program 9999 (.start (beforeEnd tokens))
  have hrun : program depthLimit (.start (beforeEnd tokens)) = .ok statements s := hrun
  refine ⟨statements, s, last, hrun, hlast, hkind, ?_⟩
  have hends : tokens.getLast?.any (·.kind = .eof) = true := by
    obtain ⟨last', hlast', hkind'⟩ := h
    rw [Option.mem_def.1 hlast']
    simpa using hkind'
  have hbody : parseBody depthLimit (tokens.takeWhile (·.kind ≠ .eof)) =
      (statements, s.complaints.reverse) := by
    change parseBody depthLimit (beforeEnd tokens) = _
    rw [parseBody, hrun]
  have hend : (tokens.drop (tokens.takeWhile (·.kind ≠ .eof)).length).head? = some last := by
    rw [List.head?_drop]
    exact hlast
  rw [parseTokens?, if_pos hends]
  simp only [hbody, hend, Option.map_some]

theorem endsInEof_append (tokens : List Token) (h : EndsInEof rest) :
    EndsInEof (tokens ++ rest) := by
  obtain ⟨last, hlast, hkind⟩ := h
  refine ⟨last, ?_, hkind⟩
  rw [List.getLast?_append, Option.mem_def.1 hlast]
  rfl

theorem beforeEnd_append (h : ∀ t ∈ tokens, t.kind ≠ .eof) (rest : List Token) :
    beforeEnd (tokens ++ rest) = tokens ++ beforeEnd rest :=
  List.takeWhile_append_of_pos (by simpa using h)

/-- Whatever tokens without an end token are put in front of a token list, the same token stands for
the end in diagnostics. -/
theorem exists_parseTokens?_append (h : EndsInEof rest) :
    ∃ last, ∀ tokens : List Token, (∀ t ∈ tokens, t.kind ≠ .eof) → parseTokens? (tokens ++ rest) =
      some ⟨(parseBody depthLimit (tokens ++ beforeEnd rest)).1,
        (parseBody depthLimit (tokens ++ beforeEnd rest)).2.map (·.diagnostic last)⟩ := by
  obtain ⟨last, hlast, -⟩ := exists_eof h
  refine ⟨last, fun tokens htokens => ?_⟩
  obtain ⟨statements, s, last', hrun, hlast', -, hparse⟩ :=
    exists_parseTokens? (endsInEof_append tokens h)
  rw [beforeEnd_append htokens] at hrun hlast'
  have hsame : last' = last := by
    rw [List.length_append, List.getElem?_append_right (Nat.le_add_right _ _),
      Nat.add_sub_cancel_left] at hlast'
    exact Option.some.inj (hlast'.symm.trans hlast)
  rw [hparse, hsame, parseBody, hrun]

end Parse

end Scriptlet
