import AirCompiler.Machine.Encoding
import AirCompiler.Proofs.Computation

/-!
# Encoding and decoding

An instruction takes one or two words, and an argument may look like an opcode, so where an
instruction begins depends on all words before it. `Program.isArgument` says which words are
arguments.

* `Instruction.make_eq_ok_iff`: an instruction is made of its opcode and its argument, and of
  nothing else.
* `Instruction.encode_eq_ok_iff`, `Program.decodeOne_eq_ok_iff`: the words of one instruction, as
  written and as read.
* `Program.decodeMany_encode`: what is written is read back, whatever words follow.
* `Program.encode_of_decodeMany`: what is read is written with its arguments reduced
  (`Program.reduced`).
* `Program.encode_roundTrip`: encoding and decoding are inverse up to the reduction of arguments and
  of a negative count, and no encoding is the beginning of another.
-/

namespace AirCompiler

theorem emod_prime_bounds (n : Int) : 0 ≤ n % prime ∧ n % prime < prime :=
  ⟨Int.emod_nonneg n (by decide), Int.emod_lt_of_pos n (by decide)⟩

/-! ## One instruction -/

theorem Opcode.ofCode?_code (op : Opcode) : ofCode? op.code = some op := by
  cases op <;> rfl

theorem Opcode.code_of_ofCode? {word : Int} {op : Opcode} (h : ofCode? word = some op) :
    (op.code : Int) = word := by
  simpa using List.find?_some h

namespace Instruction

theorem countOf_eq_ok_iff {op : Opcode} {arg : Argument} {n : WordCount} :
    countOf op arg = .ok n ↔ arg = .word n.val := by
  obtain ⟨n, hn₁, hn₅⟩ := n
  cases arg with
  | address a => simp [countOf]
  | word k =>
    rw [countOf, WordCount.ofInt?]
    by_cases hk : 1 ≤ k ∧ k ≤ 5
    · simp only [dif_pos hk, Except.ok.injEq, WordCount.mk.injEq, Argument.word.injEq]
      omega
    · simp only [dif_neg hk, reduceCtorEq, Argument.word.injEq, false_iff]
      omega

theorem map_countOf_eq_ok_iff {f : WordCount → Instruction} {op : Opcode}
    {arg : Argument} {i : Instruction} :
    f <$> countOf op arg = .ok i ↔ ∃ n : WordCount, arg = .word n.val ∧ i = f n := by
  constructor
  · intro h
    cases hn : countOf op arg with
    | error e => rw [hn] at h; cases h
    | ok n =>
      rw [hn] at h
      cases h
      exact ⟨n, countOf_eq_ok_iff.1 hn, rfl⟩
  · rintro ⟨n, harg, rfl⟩
    rw [countOf_eq_ok_iff.2 harg]
    rfl

theorem make_argument? (i : Instruction) : make i.opcode i.argument? = .ok i := by
  cases i with
  | pop n => exact map_countOf_eq_ok_iff.2 ⟨n, rfl, rfl⟩
  | readMem n => exact map_countOf_eq_ok_iff.2 ⟨n, rfl, rfl⟩
  | writeMem n => exact map_countOf_eq_ok_iff.2 ⟨n, rfl, rfl⟩
  | _ => rfl

/-- An instruction has one opcode and one argument, and no other instruction has the same two. -/
theorem make_eq_ok_iff {op : Opcode} {arg : Option Argument} {i : Instruction} :
    make op arg = .ok i ↔ i.opcode = op ∧ i.argument? = arg := by
  constructor
  · intro h
    cases arg with
    | none => cases op <;> cases h <;> exact ⟨rfl, rfl⟩
    | some arg =>
      -- of the opcodes with an argument, three take any and three a number of words
      cases op with
      | push | addi | call => cases h; exact ⟨rfl, rfl⟩
      | pop | readMem | writeMem =>
        obtain ⟨n, rfl, rfl⟩ := map_countOf_eq_ok_iff.1 h
        exact ⟨rfl, rfl⟩
      | _ => cases h
  · rintro ⟨rfl, rfl⟩
    exact i.make_argument?

theorem hasArgument_opcode (i : Instruction) : i.opcode.hasArgument = i.argument?.isSome := by
  cases i <;> rfl

theorem encode_eq_ok_iff {i : Instruction} {words : List Int} :
    i.encode = .ok words ↔ i.argument? = none ∧ words = [↑i.opcode.code] ∨
      ∃ n, i.argument? = some (.word n) ∧ (0 ≤ n ∧ n < prime) ∧ words = [↑i.opcode.code, n] := by
  constructor
  · intro h
    rw [encode] at h
    split at h
    · rename_i hnone
      cases h
      exact .inl ⟨hnone, rfl⟩
    · cases h
    · rename_i n hword
      split at h
      · rename_i hn
        cases h
        exact .inr ⟨n, hword, hn, rfl⟩
      · cases h
  · rintro (⟨hnone, rfl⟩ | ⟨n, hword, hn, rfl⟩)
    · simp only [encode, hnone]
    · simp only [encode, hword, if_pos hn]

end Instruction

namespace Program

theorem decodeOne_eq_ok_iff {words rest : List Int} {i : Instruction} :
    decodeOne words = .ok (i, rest) ↔ i.argument? = none ∧ words = ↑i.opcode.code :: rest ∨
      ∃ n, i.argument? = some (.word (n % prime)) ∧ words = ↑i.opcode.code :: n :: rest := by
  have hmake : ∀ {op arg} {i : Instruction},
      (Instruction.make op arg).mapError DecodeError.instruction = .ok i ↔ i.opcode = op ∧
      i.argument? = arg := by
    intro op arg i
    rw [mapError_eq_ok_iff, Instruction.make_eq_ok_iff]
  constructor
  · intro h
    cases words with
    | nil => cases h
    | cons word words =>
      rw [decodeOne] at h
      cases hop : Opcode.ofCode? word with
      | none => simp only [hop, reduceCtorEq] at h
      | some op =>
        obtain rfl := Opcode.code_of_ofCode? hop
        simp only [hop] at h
        split at h
        · cases words with
          | nil => cases h
          | cons n words =>
            obtain ⟨j, hj, h⟩ := exists_of_bind_eq_ok h
            cases h
            obtain ⟨rfl, harg⟩ := hmake.1 hj
            exact .inr ⟨n, harg, rfl⟩
        · obtain ⟨j, hj, h⟩ := exists_of_bind_eq_ok h
          cases h
          obtain ⟨rfl, harg⟩ := hmake.1 hj
          exact .inl ⟨harg, rfl⟩
  · have hhas := i.hasArgument_opcode
    rintro (⟨harg, rfl⟩ | ⟨n, harg, rfl⟩)
    · rw [harg] at hhas
      simp only [decodeOne, Opcode.ofCode?_code, hhas, hmake.2 ⟨rfl, harg⟩]
      rfl
    · rw [harg] at hhas
      simp only [decodeOne, Opcode.ofCode?_code, hhas, hmake.2 ⟨rfl, harg⟩]
      rfl

/-! ## Programs -/

theorem decodeOne_encode {i : Instruction} {words : List Int} (h : i.encode = .ok words)
    (rest : List Int) : decodeOne (words ++ rest) = .ok (i, rest) := by
  rw [decodeOne_eq_ok_iff]
  obtain ⟨harg, rfl⟩ | ⟨n, harg, hn, rfl⟩ := Instruction.encode_eq_ok_iff.1 h
  · exact .inl ⟨harg, rfl⟩
  · exact .inr ⟨n, by rw [harg, Int.emod_eq_of_lt hn.1 hn.2], rfl⟩

/-- What is written is read back, and the words behind it are left. -/
theorem decodeMany_encode {code : List Instruction} {parts : List (List Int)}
    (h : code.mapM Instruction.encode = .ok parts) (rest : List Int) :
    decodeMany code.length (parts.flatten ++ rest) = .ok (code, rest) := by
  induction code generalizing parts with
  | nil => cases h; rfl
  | cons i code ih =>
    rw [List.mapM_cons] at h
    obtain ⟨words, hi, h⟩ := exists_of_bind_eq_ok h
    obtain ⟨parts', hcode, h⟩ := exists_of_bind_eq_ok h
    cases h
    rw [List.flatten_cons, List.append_assoc, List.length_cons, decodeMany, decodeOne_encode hi]
    simp only [bind, Except.bind, ih hcode]
    rfl

/-- Words behind those that are read do not matter. -/
theorem decodeMany_append {n : Nat} {words rest : List Int} {code : List Instruction}
    (h : decodeMany n words = .ok (code, rest)) (more : List Int) :
    decodeMany n (words ++ more) = .ok (code, rest ++ more) := by
  induction n generalizing words code with
  | zero => cases h; rfl
  | succ n ih =>
    obtain ⟨⟨i, words'⟩, hi, h⟩ := exists_of_bind_eq_ok h
    obtain ⟨⟨code', rest'⟩, hcode, h⟩ := exists_of_bind_eq_ok h
    cases h
    have hone : decodeOne (words ++ more) = .ok (i, words' ++ more) := by
      rw [decodeOne_eq_ok_iff] at hi ⊢
      obtain ⟨harg, rfl⟩ | ⟨n, harg, rfl⟩ := hi
      · exact .inl ⟨harg, rfl⟩
      · exact .inr ⟨n, harg, rfl⟩
    rw [decodeMany, hone]
    simp only [bind, Except.bind, ih hcode]
    rfl

/-! ## Arguments -/

/-- Whether the word is the opcode of an instruction with an argument. -/
def takesArgument (word : Int) : Bool := (Opcode.ofCode? word).any Opcode.hasArgument

/-- Whether the word at a position is an argument: the word before it is none, and takes one. -/
def isArgument (words : List Int) : Nat → Bool
  | 0 => false
  | k + 1 => !isArgument words k && words[k]?.any takesArgument

/-- The words with all arguments reduced. -/
def reduced (words : List Int) : List Int :=
  words.mapIdx fun k word => if isArgument words k then word % prime else word

theorem takesArgument_code (i : Instruction) :
    takesArgument i.opcode.code = i.argument?.isSome := by
  rw [takesArgument, Opcode.ofCode?_code, Option.any_some, i.hasArgument_opcode]

theorem isArgument_cons {word : Int} (h : takesArgument word = false) (words : List Int) (k : Nat) :
    isArgument (word :: words) (k + 1) = isArgument words k := by
  induction k with
  | zero => simp [isArgument, h]
  | succ k ih => rw [isArgument, ih, isArgument, List.getElem?_cons_succ]

theorem isArgument_cons_cons {word : Int} (h : takesArgument word = true) (n : Int)
    (words : List Int) (k : Nat) :
    isArgument (word :: n :: words) (k + 2) = isArgument words k := by
  induction k with
  | zero => simp [isArgument, h]
  | succ k ih => rw [isArgument, ih, isArgument, List.getElem?_cons_succ, List.getElem?_cons_succ]

theorem reduced_cons {word : Int} (h : takesArgument word = false) (words : List Int) :
    reduced (word :: words) = word :: reduced words := by
  simp only [reduced, List.mapIdx_cons, isArgument_cons h]
  rfl

theorem reduced_cons_cons {word : Int} (h : takesArgument word = true) (n : Int)
    (words : List Int) : reduced (word :: n :: words) = word :: n % prime :: reduced words := by
  have h₁ : isArgument (word :: n :: words) 1 = true := by simp [isArgument, h]
  simp only [reduced, List.mapIdx_cons, isArgument_cons_cons h, Nat.zero_add, h₁]
  rfl

/-- An instruction that is read can be written. -/
theorem encode_of_decodeOne {words rest : List Int} {i : Instruction}
    (h : decodeOne words = .ok (i, rest)) :
    ∃ part, i.encode = .ok part ∧ reduced words = part ++ reduced rest := by
  have htakes := takesArgument_code i
  obtain ⟨harg, rfl⟩ | ⟨n, harg, rfl⟩ := decodeOne_eq_ok_iff.1 h
  · rw [harg] at htakes
    exact ⟨_, Instruction.encode_eq_ok_iff.2 (.inl ⟨harg, rfl⟩), reduced_cons htakes rest⟩
  · rw [harg] at htakes
    exact ⟨_, Instruction.encode_eq_ok_iff.2 (.inr ⟨_, harg, emod_prime_bounds n, rfl⟩),
      reduced_cons_cons htakes n rest⟩

/-- Instructions that are read can be written, and give the same words with arguments reduced. -/
theorem encode_of_decodeMany {n : Nat} {words rest : List Int} {code : List Instruction}
    (h : decodeMany n words = .ok (code, rest)) :
    code.length = n ∧ ∃ parts, code.mapM Instruction.encode = .ok parts ∧
      reduced words = parts.flatten ++ reduced rest := by
  induction n generalizing words code with
  | zero => cases h; exact ⟨rfl, [], rfl, rfl⟩
  | succ n ih =>
    obtain ⟨⟨i, words'⟩, hi, h⟩ := exists_of_bind_eq_ok h
    obtain ⟨⟨code', rest'⟩, hcode, h⟩ := exists_of_bind_eq_ok h
    cases h
    obtain ⟨part, hpart, hwords⟩ := encode_of_decodeOne hi
    obtain ⟨hlen, parts, hparts, hrest⟩ := ih hcode
    refine ⟨by rw [List.length_cons, hlen], part :: parts, ?_, ?_⟩
    · rw [List.mapM_cons, hpart, hparts]
      rfl
    · rw [hwords, hrest, List.flatten_cons, List.append_assoc]

/-! ## Encodings -/

/-- The encoding without a negative count and with all arguments reduced. -/
def canonical : List Int → List Int
  | [] => []
  | count :: words => max count 0 :: reduced words

/-- The count is not negative, and every argument is the representative of a base element. -/
def IsCanonical : List Int → Prop
  | [] => True
  | count :: words =>
    0 ≤ count ∧ ∀ (k : Nat) (n : Int), words[k]? = some n → isArgument words k = true →
      0 ≤ n ∧ n < prime

theorem canonical_eq_self {words : List Int} (h : IsCanonical words) : canonical words = words := by
  cases words with
  | nil => rfl
  | cons count words =>
    obtain ⟨hcount, hargs⟩ := h
    have hwords : reduced words = words := by
      refine List.ext_getElem? fun k => ?_
      rw [reduced, List.getElem?_mapIdx]
      cases hk : words[k]? with
      | none => rfl
      | some n =>
        rw [Option.map_some]
        split
        · rename_i harg
          obtain ⟨h₀, hlt⟩ := hargs k n hk harg
          rw [Int.emod_eq_of_lt h₀ hlt]
        · rfl
    rw [canonical, hwords, Int.max_eq_left hcount]

theorem encode_eq_ok_iff {code : List Instruction} {words : List Int} :
    encode code = .ok words ↔ ∃ parts, code.mapM Instruction.encode = .ok parts ∧
      words = ↑code.length :: parts.flatten := by
  constructor
  · intro h
    obtain ⟨parts, hparts, h⟩ := exists_of_bind_eq_ok h
    cases h
    exact ⟨parts, hparts, rfl⟩
  · rintro ⟨parts, hparts, rfl⟩
    rw [encode, hparts]
    rfl

theorem decode_eq_ok_iff {words : List Int} {code : List Instruction} :
    decode words = .ok code ↔ ∃ count rest, words = count :: rest ∧
      decodeMany count.toNat rest = .ok (code, []) := by
  constructor
  · intro h
    cases words with
    | nil => cases h
    | cons count words =>
      obtain ⟨⟨code', rest⟩, hmany, h⟩ := exists_of_bind_eq_ok h
      cases rest with
      | nil => cases h; exact ⟨count, words, rfl, hmany⟩
      | cons _ _ => cases h
  · rintro ⟨count, words, rfl, hmany⟩
    rw [decode, hmany]
    rfl

theorem decode_encode {code : List Instruction} {words : List Int} (h : encode code = .ok words) :
    decode words = .ok code := by
  obtain ⟨parts, hparts, rfl⟩ := encode_eq_ok_iff.1 h
  have hmany := decodeMany_encode hparts []
  rw [List.append_nil] at hmany
  exact decode_eq_ok_iff.2 ⟨_, _, rfl, hmany⟩

theorem encode_decode {words : List Int} {code : List Instruction} (h : decode words = .ok code) :
    encode code = .ok (canonical words) := by
  obtain ⟨count, rest, rfl, hmany⟩ := decode_eq_ok_iff.1 h
  obtain ⟨hlen, parts, hparts, hrest⟩ := encode_of_decodeMany hmany
  have hnil : reduced [] = [] := rfl
  rw [hnil, List.append_nil] at hrest
  refine encode_eq_ok_iff.2 ⟨parts, hparts, ?_⟩
  rw [canonical, hrest, hlen, Int.toNat_eq_max]

/-- An encoding with more words behind it is none. -/
theorem decode_append {words : List Int} {code : List Instruction} (h : decode words = .ok code)
    {more : List Int} (hmore : more ≠ []) :
    decode (words ++ more) = .error (.trailing more.length) := by
  obtain ⟨count, rest, rfl, hmany⟩ := decode_eq_ok_iff.1 h
  rw [List.cons_append, decode, decodeMany_append hmany more]
  cases more with
  | nil => exact absurd rfl hmore
  | cons word more => rfl

/-- What is encoded is decoded. What is decoded is encoded by the same words, but for a negative
count and for arguments that are not reduced; so a program has one encoding without these. No
beginning of an encoding and no continuation of it is an encoding. -/
theorem encode_roundTrip :
    (∀ code words, encode code = .ok words → decode words = .ok code) ∧
      (∀ words code, decode words = .ok code → encode code = .ok (canonical words)) ∧
      (∀ words words' code, IsCanonical words → IsCanonical words' → decode words = .ok code →
        decode words' = .ok code → words = words') ∧
      ∀ words words' code, decode words = .ok code → words' <+: words ∨
        words <+: words' → words' ≠ words → ∃ e, decode words' = .error e := by
  refine ⟨fun _ _ => decode_encode, fun _ _ => encode_decode,
    fun words words' code hw hw' h h' => ?_, fun words words' code h hor hne => ?_⟩
  · have hsame := (encode_decode h).symm.trans (encode_decode h')
    rw [canonical_eq_self hw, canonical_eq_self hw'] at hsame
    exact Except.ok.inj hsame
  · rcases hor with ⟨more, rfl⟩ | ⟨more, rfl⟩
    · -- were the beginning an encoding, the whole would have words left over
      have hmore : more ≠ [] := by
        rintro rfl
        exact hne (List.append_nil words').symm
      cases h' : decode words' with
      | error e => exact ⟨e, rfl⟩
      | ok code' =>
        rw [decode_append h' hmore] at h
        cases h
    · refine ⟨_, decode_append h ?_⟩
      rintro rfl
      exact hne (List.append_nil words)

-- an argument that looks like an opcode, and one that is not reduced
example :
    decode [3, 0x10, 0x00, 0x10, -1, 0x21] =
      .ok [.push (.word 0), .push (.word 18446744069414584320), .xxAdd] ∧
      canonical [3, 0x10, 0x00, 0x10, -1, 0x21] =
      [3, 0x10, 0x00, 0x10, 18446744069414584320, 0x21] := ⟨rfl, rfl⟩

end Program

end AirCompiler
