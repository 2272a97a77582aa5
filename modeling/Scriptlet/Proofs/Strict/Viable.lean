import Scriptlet.Proofs.Parse.Depth
import Scriptlet.Proofs.Strict.Derivable
import Scriptlet.Proofs.Strict.Locality
import Scriptlet.Proofs.Strict.Prefix

/-!
# What a program can begin with

The strict front end accepts the programs of the grammar from which it is generated and no others,
if it has enough depth, and it stops at the first lexeme with which no program can go on: what it
took is the beginning of a program, and it goes through whatever a program can begin with.

## Main results

* `Strict.program_eq_ok`, `Strict.exists_derives_of_program` — what the strict front end accepts
* `Strict.program_unique` — a program has one list of statements
* `Strict.Viable.exists_program` — what a program of lexemes can begin with, in terms of tokens
* `Strict.Viable.exists_fault` — where the strict front end faults
-/

namespace Scriptlet.Strict

open Grammar

/-! ### Programs -/

/-- The strict front end accepts a program, if it has enough depth. -/
theorem program_eq_ok {ts ts' : List Token} {ss : List Tree} (h : Program .nearest ts ss)
    (hts : List.Forall₂ Token.Agrees ts ts') {e : Nat} (he : 12 * ts.length + 14 ≤ e)
    (line : Nat) : ∃ rest, program (.finished line) e ts' = .ok (ss, rest) := by
  obtain ⟨ss', s, hrun⟩ : ∃ ss' s, Parse.program e ⟨ts, [], 0⟩ = .ok ss' s := by
    obtain ⟨e, rfl⟩ : ∃ d, e = d + 1 := ⟨e - 1, by omega⟩
    exact Parse.neverAborts_program e _
  -- the parser reads the program, and the strict front end follows it
  have hclear := Parse.clear_of_program he ⟨Nat.le_refl _, List.forall_mem_nil _⟩ hrun
  rcases Parse.gets_program h e [] 0 with hgets | hout
  · have hfollows := (ensures_program e line).ok hgets rfl
    obtain ⟨rest, -, haccepts⟩ := hfollows ts' hts
    exact ⟨rest, haccepts⟩
  · rw [hrun] at hout
    obtain ⟨c, hc, hcause⟩ := hout
    exact absurd hcause (hclear.2 c hc)

theorem Token.agrees_refl (ts : List Token) : List.Forall₂ Token.Agrees ts ts :=
  List.forall₂_same.2 fun _ _ => .inl rfl

/-- The tokens of a program have one list of statements, wherever its strings end. -/
theorem program_unique {ts ts' : List Token} {ss ss' : List Tree} (h : Program .nearest ts ss)
    (h' : Program .nearest ts' ss') (hts : List.Forall₂ Token.Agrees ts ts') : ss = ss' := by
  obtain ⟨_, haccepts⟩ := program_eq_ok h hts (Nat.le_refl _) 1
  obtain ⟨_, haccepts'⟩ := program_eq_ok (e := 12 * ts.length + 14) h' (Token.agrees_refl ts')
    (by rw [hts.length_eq]) 1
  cases haccepts.symm.trans haccepts'
  rfl

/-! ### What a program can begin with -/

/-- The lexeme with its closing mark spelled like one. -/
def Lexeme.respelled (l : Lexeme) : Lexeme :=
  if l.kind = .rightParen then { l with text := ")" }
  else if l.kind = .rightBracket then { l with text := "]" }
  else l

theorem Lexeme.kind_respelled (l : Lexeme) : l.respelled.kind = l.kind := by
  unfold respelled
  split_ifs <;> rfl

theorem Lexeme.isSpelled_respelled (l : Lexeme) : l.respelled.IsSpelled := by
  rw [IsSpelled, kind_respelled, respelled]
  refine ⟨fun h => by rw [if_pos h], fun h => ?_⟩
  rw [if_neg (by simp [h]), if_pos h]

theorem Lexeme.IsSpelled.respelled_eq {l : Lexeme} (h : l.IsSpelled) : l.respelled = l := by
  unfold respelled
  split_ifs with hparen hbracket
  · rw [← h.1 hparen]
  · rw [← h.2 hbracket]
  · rfl

/-- A derivation is about the kinds of the lexemes only. -/
theorem Derives.map {parts : List Part} {ls rest : List Lexeme} {children : List ParseTree}
    (h : Derives parts ls rest children) {f : Lexeme → Lexeme} (hf : ∀ l, (f l).kind = l.kind) :
    Derivable parts (ls.map f) (rest.map f) := by
  induction h with
  | nil => exact .nil
  | token hkind _ ih => exact .token ((hf _).symm ▸ hkind) ih
  | rule hp _ _ ihOwn ih =>
    rw [List.map_append] at ihOwn ⊢
    exact .cons (.rule hp ihOwn) ih
  | @absent optional _ ls rest _ hnext _ ih =>
    have habsent : Derivable [.optional optional] [] (ls.map f ++ rest.map f) := by
      refine .absent fun l hl => ?_
      rw [← List.map_append, List.head?_map] at hl
      obtain ⟨l, hl', rfl⟩ := Option.map_eq_some_iff.1 hl
      rw [hf]
      exact hnext l hl'
    exact habsent.cons ih
  | present _ _ ihOwn ih =>
    rw [List.map_append] at ihOwn ⊢
    exact .cons (.present ihOwn) ih
  | @done repeated _ ls rest _ _ ih =>
    have hdone : Derivable [.many repeated] [] (ls.map f ++ rest.map f) := .done
    exact hdone.cons ih
  | again _ _ ihOwn ih =>
    rw [List.map_append] at ihOwn ⊢
    obtain ⟨own, hown⟩ := ihOwn
    obtain ⟨more, hmore⟩ := ih
    exact ⟨_, .again hown hmore⟩

/-- Behind lexemes with which a program can begin, there are tokens that make up a program with
theirs. -/
theorem Viable.exists_program {ls : List Lexeme} (h : Viable ls) (hls : ∀ l ∈ ls, l.IsSpelled) :
    ∃ ts ss, Program .nearest (ls.map Lexeme.token ++ ts) ss := by
  obtain ⟨more, t, ht⟩ := h
  -- the lexemes behind may have any texts, but a tree means something only if they are spelled
  obtain ⟨children, hchildren⟩ := Derives.map ht Lexeme.kind_respelled
  have hsame : ls.map Lexeme.respelled = ls := by
    conv_rhs => rw [← List.map_id ls]
    exact List.map_congr_left fun l hl => (hls l hl).respelled_eq
  rw [List.map_append, hsame] at hchildren
  have hspelled : ∀ l ∈ ls ++ more.map Lexeme.respelled, l.IsSpelled := by
    refine List.forall_mem_append.2 ⟨hls, fun l hl => ?_⟩
    obtain ⟨l, -, rfl⟩ := List.mem_map.1 hl
    exact l.isSpelled_respelled
  obtain ⟨t', ht', rfl⟩ := (Derives.matches means_node hchildren hspelled).of_single
  obtain ⟨ss, -, hss⟩ := ht'
  rw [List.map_append] at hss
  exact ⟨_, ss, hss⟩

/-! ### What the strict front end takes -/

/-- Some lexeme of the kind of a token. -/
def Lexeme.ofKind (kind : Kind) : Lexeme := ⟨kind, "", 1⟩

/-- Lexemes whose tokens are the beginning of a program are the beginning of one. -/
theorem viable_of_program {ls : List Lexeme} {ts : List Token} {ss : List Tree}
    (h : Program .any (ls.map Lexeme.token ++ ts) ss) :
    ∃ more, more.map (·.kind) = ts.map (·.kind) ∧ ∃ t, Rule.start.Derives (ls ++ more) [] t := by
  obtain ⟨ss', h'⟩ := h.exists_nearest
  have hmore : (ts.map fun t => Lexeme.ofKind t.kind).map (·.kind) = ts.map (·.kind) := by
    rw [List.map_map]
    rfl
  refine ⟨ts.map fun t => Lexeme.ofKind t.kind, hmore, derivable_of_program h' ?_⟩
  rw [SameKinds, List.map_append, List.map_append, hmore, List.map_map]
  rfl

/-- What the strict front end accepts has a tree. -/
theorem exists_derives_of_program {ending : Ending} {e : Nat} {ls : List Lexeme}
    {out : List Tree × List Token} (h : program ending e (ls.map Lexeme.token) = .ok out) :
    ∃ t, Rule.start.Derives ls [] t := by
  have hbegun := begins_program ending e (ls.map Lexeme.token)
  rw [h] at hbegun
  obtain ⟨us, hus, hprogram⟩ := hbegun
  obtain rfl : us = ls.map Lexeme.token := by
    rw [hus, (finished_of_program h).1, List.append_nil]
  rw [← List.append_nil (ls.map _)] at hprogram
  obtain ⟨more, hmore, ht⟩ := viable_of_program hprogram
  obtain rfl : more = [] := List.map_eq_nil_iff.1 hmore
  rwa [List.append_nil] at ht

/-- What the strict front end took before it faulted is the beginning of a program. -/
theorem exists_viable_of_fault {ending : Ending} {e : Nat} {ls : List Lexeme} {fault : Fault}
    (h : program ending e (ls.map Lexeme.token) = .error fault) :
    ∃ before after, ls = before ++ after ∧ fault.rest = after.map Lexeme.token ∧ Viable before := by
  have hbegun := begins_program ending e (ls.map Lexeme.token)
  rw [h] at hbegun
  obtain ⟨us, ts, ss, hus, hprogram⟩ := hbegun
  obtain ⟨before, after, rfl, rfl, hafter⟩ := List.map_eq_append_iff.1 hus
  obtain ⟨more, -, ht⟩ := viable_of_program hprogram
  exact ⟨before, after, rfl, hafter.symm, more, ht⟩

theorem Viable.of_append {us vs : List Lexeme} (h : Viable (us ++ vs)) : Viable us := by
  obtain ⟨more, t, ht⟩ := h
  exact ⟨vs ++ more, t, by rwa [← List.append_assoc]⟩

/-! ### Where the strict front end faults -/

/-- With lexemes with which a program can begin in front, a fault is behind these. -/
theorem Viable.fault_suffix {ls : List Lexeme} (h : Viable ls) (hls : ∀ l ∈ ls, l.IsSpelled) :
    ∃ n, ∀ e ≥ n, ∀ (ending : Ending) (behind : List Token) (fault : Fault),
      program ending e (ls.map Lexeme.token ++ behind) = .error fault → fault.rest <:+ behind := by
  obtain ⟨ts, ss, hprogram⟩ := h.exists_program hls
  refine ⟨12 * (ls.map Lexeme.token ++ ts).length + 14, fun e he ending behind fault hfault => ?_⟩
  obtain ⟨rest, haccepts⟩ := program_eq_ok hprogram (Token.agrees_refl _) he 1
  have hleft : left (program ending e (ls.map Lexeme.token ++ behind)) <:+ behind :=
    left_program haccepts
  rwa [hfault] at hleft

/-- The strict front end faults at the first lexeme with which no program can go on, or at the end
of a text that could go on but not end there. -/
theorem Viable.exists_fault {before after : List Lexeme} (h : Viable before)
    (hnot : ∀ l ∈ after.head?, ¬ Viable (before ++ [l])) {ending : Ending}
    (hend : ∀ line, ending = .finished line → ¬ ∃ t, Rule.start.Derives (before ++ after) [] t)
    (hls : ∀ l ∈ before, l.IsSpelled) :
    ∃ n, ∀ e ≥ n, ∃ fault, program ending e ((before ++ after).map Lexeme.token) = .error fault ∧
      fault.rest = after.map Lexeme.token := by
  obtain ⟨n, hsuffix⟩ := h.fault_suffix hls
  refine ⟨n, fun e he => ?_⟩
  cases hrun : program ending e ((before ++ after).map Lexeme.token) with
  | ok out =>
    obtain ⟨-, line, hline⟩ := finished_of_program hrun
    exact absurd (exists_derives_of_program hrun) (hend line hline)
  | error fault =>
    refine ⟨fault, rfl, ?_⟩
    obtain ⟨before', after', hsplit, hrest, hviable⟩ := exists_viable_of_fault hrun
    have hle := (hsuffix e he _ _ fault (by rwa [← List.map_append])).length_le
    rw [hrest, List.length_map, List.length_map] at hle
    rcases List.append_eq_append_iff.1 hsplit with ⟨us, rfl, hafter⟩ | ⟨us, rfl, rfl⟩
    · cases us with
      | nil => rw [hrest, hafter, List.nil_append]
      | cons l us =>
        -- the lexeme would have been taken
        refine absurd ?_ (hnot l (by rw [hafter]; rfl))
        rw [← List.singleton_append, ← List.append_assoc] at hviable
        exact hviable.of_append
    · rw [List.length_append] at hle
      obtain rfl := List.length_eq_zero_iff.1 (by omega : us.length = 0)
      rw [hrest, List.nil_append]

end Scriptlet.Strict
