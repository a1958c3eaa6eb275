import Mathlib.Data.List.Basic
import Mathlib.Tactic.Common

/-!
# Base64

What a program can rely on in a codec for base64 whose padding has to be canonical (`Engine.Lawful`), and the codec of
an alphabet of 64 symbols, which keeps these laws: four symbols stand for three bytes. Its `decode` takes padding at the
end only, and bits that stand for no byte have to be zero. So it accepts a text exactly when the text is an encoding
(`decode_eq_some_iff`). -/

namespace Base64

/-- An alphabet: its symbols, what they stand for, and the symbol for padding, which is none of them. -/
structure Alphabet where
  symbol : Nat → UInt8
  value : UInt8 → Option Nat
  pad : UInt8
  value_symbol : ∀ v < 64, value (symbol v) = some v
  symbol_value : ∀ c v, value c = some v → v < 64 ∧ symbol v = c
  value_pad : value pad = none

/-- A codec: the text of a list of bytes, and the bytes of a text, or what is wrong with it. -/
structure Engine where
  encode : List UInt8 → List UInt8
  decode : List UInt8 → Except String (List UInt8)

/-- The laws of a codec over an alphabet. A text is decoded when it is the encoding of something. -/
structure Engine.Lawful (A : Alphabet) (engine : Engine) : Prop where
  decode_encode : ∀ bytes, engine.decode (engine.encode bytes) = .ok bytes
  canonical : ∀ text bytes, engine.decode text = .ok bytes → engine.encode bytes = text
  length_encode : ∀ bytes, (engine.encode bytes).length = 4 * ((bytes.length + 2) / 3)
  mem_encode : ∀ bytes, ∀ c ∈ engine.encode bytes, c = A.pad ∨ ∃ v < 64, c = A.symbol v

theorem Engine.Lawful.decode_eq_ok_iff {A : Alphabet} {engine : Engine} (h : engine.Lawful A)
    {text bytes : List UInt8} : engine.decode text = .ok bytes ↔ engine.encode bytes = text := by
  constructor
  · exact h.canonical text bytes
  · rintro rfl
    exact h.decode_encode bytes

variable (A : Alphabet)

/-- The text of a list of bytes. -/
def encode : List UInt8 → List UInt8
  | [] => []
  | [b0] => [A.symbol (b0.toNat / 4), A.symbol (b0.toNat % 4 * 16), A.pad, A.pad]
  | [b0, b1] =>
    [A.symbol (b0.toNat / 4), A.symbol (b0.toNat % 4 * 16 + b1.toNat / 16), A.symbol (b1.toNat % 16 * 4), A.pad]
  | b0 :: b1 :: b2 :: rest =>
    A.symbol (b0.toNat / 4) :: A.symbol (b0.toNat % 4 * 16 + b1.toNat / 16) ::
      A.symbol (b1.toNat % 16 * 4 + b2.toNat / 64) :: A.symbol (b2.toNat % 64) :: encode rest

/-- The three bytes of four symbols. -/
def join (v0 v1 v2 v3 : Nat) : List UInt8 :=
  [UInt8.ofNat (v0 * 4 + v1 / 16), UInt8.ofNat (v1 % 16 * 16 + v2 / 4), UInt8.ofNat (v2 % 4 * 64 + v3)]

/-- Four symbols without padding. -/
def decodeQuantum (c0 c1 c2 c3 : UInt8) : Option (List UInt8) := do
  let v0 ← A.value c0
  let v1 ← A.value c1
  let v2 ← A.value c2
  let v3 ← A.value c3
  return join v0 v1 v2 v3

/-- The last four symbols of a text. -/
def decodeLast (c0 c1 c2 c3 : UInt8) : Option (List UInt8) :=
  if c3 = A.pad then
    if c2 = A.pad then do
      let v0 ← A.value c0
      let v1 ← A.value c1
      if v1 % 16 = 0 then return (join v0 v1 0 0).take 1 else none
    else do
      let v0 ← A.value c0
      let v1 ← A.value c1
      let v2 ← A.value c2
      if v2 % 4 = 0 then return (join v0 v1 v2 0).take 2 else none
  else decodeQuantum A c0 c1 c2 c3

/-- The bytes of a text. -/
def decode : List UInt8 → Option (List UInt8)
  | [] => some []
  | [c0, c1, c2, c3] => decodeLast A c0 c1 c2 c3
  | c0 :: c1 :: c2 :: c3 :: rest => do
    let bytes ← decodeQuantum A c0 c1 c2 c3
    let rest ← decode rest
    return bytes ++ rest
  | _ => none

variable {A}

/-! ## What was encoded is decoded -/

theorem join_quantum (b0 b1 b2 : UInt8) :
    join (b0.toNat / 4) (b0.toNat % 4 * 16 + b1.toNat / 16) (b1.toNat % 16 * 4 + b2.toNat / 64) (b2.toNat % 64) =
      [b0, b1, b2] := by
  have h0 := b0.toNat_lt
  have h1 := b1.toNat_lt
  have h2 := b2.toNat_lt
  have e0 : b0.toNat / 4 * 4 + (b0.toNat % 4 * 16 + b1.toNat / 16) / 16 = b0.toNat := by omega
  have e1 : (b0.toNat % 4 * 16 + b1.toNat / 16) % 16 * 16 + (b1.toNat % 16 * 4 + b2.toNat / 64) / 4 = b1.toNat := by
    omega
  have e2 : (b1.toNat % 16 * 4 + b2.toNat / 64) % 4 * 64 + b2.toNat % 64 = b2.toNat := by omega
  unfold join
  rw [e0, e1, e2, UInt8.ofNat_toNat, UInt8.ofNat_toNat, UInt8.ofNat_toNat]

theorem symbol_ne_pad {v : Nat} (hv : v < 64) : A.symbol v ≠ A.pad := by
  intro h
  have hvalue := A.value_symbol v hv
  rw [h, A.value_pad] at hvalue
  cases hvalue

theorem decodeQuantum_symbols {v0 v1 v2 v3 : Nat} (h0 : v0 < 64) (h1 : v1 < 64) (h2 : v2 < 64) (h3 : v3 < 64) :
    decodeQuantum A (A.symbol v0) (A.symbol v1) (A.symbol v2) (A.symbol v3) = some (join v0 v1 v2 v3) := by
  unfold decodeQuantum
  rw [A.value_symbol v0 h0, A.value_symbol v1 h1, A.value_symbol v2 h2, A.value_symbol v3 h3]
  rfl

theorem decode_cons_cons {c0 c1 c2 c3 : UInt8} (hpad : c3 ≠ A.pad) (rest : List UInt8) :
    decode A (c0 :: c1 :: c2 :: c3 :: rest) =
      (decodeQuantum A c0 c1 c2 c3).bind fun bytes => (decode A rest).map fun rest => bytes ++ rest := by
  cases rest with
  | nil =>
    show decodeLast A c0 c1 c2 c3 = _
    unfold decodeLast
    rw [if_neg hpad]
    cases decodeQuantum A c0 c1 c2 c3 with
    | none => rfl
    | some bytes =>
      show some bytes = some (bytes ++ [])
      rw [List.append_nil]
  | cons c rest =>
    show ((decodeQuantum A c0 c1 c2 c3).bind fun bytes =>
      (decode A (c :: rest)).bind fun rest => some (bytes ++ rest)) = _
    congr
    funext bytes
    cases decode A (c :: rest) <;> rfl

theorem decode_encode (bytes : List UInt8) : decode A (encode A bytes) = some bytes := by
  fun_induction encode A bytes with
  | case1 => rfl
  | case2 b0 =>
    have h0 := b0.toNat_lt
    have hjoin := join_quantum b0 0 0
    show decodeLast A _ _ _ _ = _
    unfold decodeLast
    rw [if_pos rfl, if_pos rfl, A.value_symbol _ (by omega), A.value_symbol _ (by omega)]
    show (if b0.toNat % 4 * 16 % 16 = 0 then some ((join (b0.toNat / 4) (b0.toNat % 4 * 16) 0 0).take 1) else none) = _
    rw [if_pos (by omega)]
    exact congrArg (fun l => some (l.take 1)) hjoin
  | case3 b0 b1 =>
    have h0 := b0.toNat_lt
    have h1 := b1.toNat_lt
    have hjoin := join_quantum b0 b1 0
    show decodeLast A _ _ _ _ = _
    unfold decodeLast
    rw [if_pos rfl, if_neg (symbol_ne_pad (by omega)), A.value_symbol _ (by omega), A.value_symbol _ (by omega),
      A.value_symbol _ (by omega)]
    show (if b1.toNat % 16 * 4 % 4 = 0 then some ((join (b0.toNat / 4) (b0.toNat % 4 * 16 + b1.toNat / 16)
      (b1.toNat % 16 * 4) 0).take 2) else none) = _
    rw [if_pos (by omega)]
    exact congrArg (fun l => some (l.take 2)) hjoin
  | case4 b0 b1 b2 rest ih =>
    have h0 := b0.toNat_lt
    have h1 := b1.toNat_lt
    have h2 := b2.toNat_lt
    rw [decode_cons_cons (symbol_ne_pad (by omega)), ih,
      decodeQuantum_symbols (by omega) (by omega) (by omega) (by omega), join_quantum]
    rfl

/-! ## What is decoded was encoded -/

theorem encode_cons (b0 b1 b2 : UInt8) (rest : List UInt8) :
    encode A (b0 :: b1 :: b2 :: rest) =
      A.symbol (b0.toNat / 4) :: A.symbol (b0.toNat % 4 * 16 + b1.toNat / 16) ::
        A.symbol (b1.toNat % 16 * 4 + b2.toNat / 64) :: A.symbol (b2.toNat % 64) :: encode A rest := rfl

theorem decodeQuantum_cases {c0 c1 c2 c3 : UInt8} {bytes : List UInt8} (h : decodeQuantum A c0 c1 c2 c3 = some bytes) :
    ∃ b0 b1 b2, bytes = [b0, b1, b2] ∧
      ∀ rest, encode A (b0 :: b1 :: b2 :: rest) = c0 :: c1 :: c2 :: c3 :: encode A rest := by
  unfold decodeQuantum at h
  simp only [Option.bind_eq_bind, Option.bind_eq_some_iff, Option.pure_def, Option.some.injEq] at h
  obtain ⟨v0, h0, v1, h1, v2, h2, v3, h3, rfl⟩ := h
  obtain ⟨l0, rfl⟩ := A.symbol_value _ _ h0
  obtain ⟨l1, rfl⟩ := A.symbol_value _ _ h1
  obtain ⟨l2, rfl⟩ := A.symbol_value _ _ h2
  obtain ⟨l3, rfl⟩ := A.symbol_value _ _ h3
  refine ⟨_, _, _, rfl, fun rest => ?_⟩
  have e0 : (v0 * 4 + v1 / 16) % 2 ^ 8 / 4 = v0 := by omega
  have e1 : (v0 * 4 + v1 / 16) % 2 ^ 8 % 4 * 16 + (v1 % 16 * 16 + v2 / 4) % 2 ^ 8 / 16 = v1 := by omega
  have e2 : (v1 % 16 * 16 + v2 / 4) % 2 ^ 8 % 16 * 4 + (v2 % 4 * 64 + v3) % 2 ^ 8 / 64 = v2 := by omega
  have e3 : (v2 % 4 * 64 + v3) % 2 ^ 8 % 64 = v3 := by omega
  simp only [encode_cons, UInt8.toNat_ofNat', e0, e1, e2, e3]

theorem encode_of_decodeLast {c0 c1 c2 c3 : UInt8} {bytes : List UInt8} (h : decodeLast A c0 c1 c2 c3 = some bytes) :
    encode A bytes = [c0, c1, c2, c3] := by
  unfold decodeLast at h
  split at h
  · rename_i h3
    subst h3
    split at h
    · rename_i h2
      subst h2
      simp only [Option.bind_eq_bind, Option.bind_eq_some_iff, Option.ite_none_right_eq_some, Option.pure_def,
        Option.some.injEq] at h
      obtain ⟨v0, h0, v1, h1, hzero, rfl⟩ := h
      obtain ⟨l0, rfl⟩ := A.symbol_value _ _ h0
      obtain ⟨l1, rfl⟩ := A.symbol_value _ _ h1
      have e0 : (v0 * 4 + v1 / 16) % 2 ^ 8 / 4 = v0 := by omega
      have e1 : (v0 * 4 + v1 / 16) % 2 ^ 8 % 4 * 16 = v1 := by omega
      show [A.symbol ((UInt8.ofNat (v0 * 4 + v1 / 16)).toNat / 4),
        A.symbol ((UInt8.ofNat (v0 * 4 + v1 / 16)).toNat % 4 * 16), A.pad, A.pad] = _
      rw [UInt8.toNat_ofNat', e0, e1]
    · simp only [Option.bind_eq_bind, Option.bind_eq_some_iff, Option.ite_none_right_eq_some, Option.pure_def,
        Option.some.injEq] at h
      obtain ⟨v0, h0, v1, h1, v2, h2, hzero, rfl⟩ := h
      obtain ⟨l0, rfl⟩ := A.symbol_value _ _ h0
      obtain ⟨l1, rfl⟩ := A.symbol_value _ _ h1
      obtain ⟨l2, rfl⟩ := A.symbol_value _ _ h2
      have e0 : (v0 * 4 + v1 / 16) % 2 ^ 8 / 4 = v0 := by omega
      have e1 : (v0 * 4 + v1 / 16) % 2 ^ 8 % 4 * 16 + (v1 % 16 * 16 + v2 / 4) % 2 ^ 8 / 16 = v1 := by omega
      have e2 : (v1 % 16 * 16 + v2 / 4) % 2 ^ 8 % 16 * 4 = v2 := by omega
      show [A.symbol ((UInt8.ofNat (v0 * 4 + v1 / 16)).toNat / 4),
        A.symbol ((UInt8.ofNat (v0 * 4 + v1 / 16)).toNat % 4 * 16 + (UInt8.ofNat (v1 % 16 * 16 + v2 / 4)).toNat / 16),
        A.symbol ((UInt8.ofNat (v1 % 16 * 16 + v2 / 4)).toNat % 16 * 4), A.pad] = _
      rw [UInt8.toNat_ofNat', UInt8.toNat_ofNat', e0, e1, e2]
  · obtain ⟨b0, b1, b2, rfl, hencode⟩ := decodeQuantum_cases h
    exact hencode []

theorem encode_of_decode {text bytes : List UInt8} (h : decode A text = some bytes) : encode A bytes = text := by
  fun_induction decode A text generalizing bytes with
  | case1 =>
    cases h
    rfl
  | case2 c0 c1 c2 c3 => exact encode_of_decodeLast h
  | case3 c0 c1 c2 c3 rest hrest ih =>
    simp only [Option.bind_eq_bind, Option.bind_eq_some_iff, Option.pure_def, Option.some.injEq] at h
    obtain ⟨first, hfirst, others, hothers, rfl⟩ := h
    obtain ⟨b0, b1, b2, rfl, hencode⟩ := decodeQuantum_cases hfirst
    show encode A (b0 :: b1 :: b2 :: others) = _
    rw [hencode, ih hothers]
  | case4 => cases h

/-- **Canonical.** The decoder accepts the encodings, and reads from each the bytes that it is an encoding of. -/
theorem decode_eq_some_iff {text bytes : List UInt8} : decode A text = some bytes ↔ encode A bytes = text := by
  constructor
  · exact encode_of_decode
  · rintro rfl
    exact decode_encode bytes

theorem length_encode (bytes : List UInt8) : (encode A bytes).length = 4 * ((bytes.length + 2) / 3) := by
  fun_induction encode A bytes with
  | case1 => rfl
  | case2 => simp
  | case3 => simp
  | case4 b0 b1 b2 rest ih =>
    simp only [List.length_cons, ih]
    omega

/-- The bytes of a text are symbols and padding. -/
theorem mem_encode {bytes : List UInt8} {c : UInt8} (h : c ∈ encode A bytes) :
    c = A.pad ∨ ∃ v < 64, c = A.symbol v := by
  fun_induction encode A bytes with
  | case1 => cases h
  | case2 b0 =>
    have h0 := b0.toNat_lt
    simp only [List.mem_cons, List.not_mem_nil, or_false] at h
    rcases h with rfl | rfl | rfl | rfl
    · exact Or.inr ⟨_, by omega, rfl⟩
    · exact Or.inr ⟨_, by omega, rfl⟩
    · exact Or.inl rfl
    · exact Or.inl rfl
  | case3 b0 b1 =>
    have h0 := b0.toNat_lt
    have h1 := b1.toNat_lt
    simp only [List.mem_cons, List.not_mem_nil, or_false] at h
    rcases h with rfl | rfl | rfl | rfl
    · exact Or.inr ⟨_, by omega, rfl⟩
    · exact Or.inr ⟨_, by omega, rfl⟩
    · exact Or.inr ⟨_, by omega, rfl⟩
    · exact Or.inl rfl
  | case4 b0 b1 b2 rest ih =>
    have h0 := b0.toNat_lt
    have h1 := b1.toNat_lt
    have h2 := b2.toNat_lt
    simp only [List.mem_cons] at h
    rcases h with rfl | rfl | rfl | rfl | h
    · exact Or.inr ⟨_, by omega, rfl⟩
    · exact Or.inr ⟨_, by omega, rfl⟩
    · exact Or.inr ⟨_, by omega, rfl⟩
    · exact Or.inr ⟨_, by omega, rfl⟩
    · exact ih h

/-! ## The codec of an alphabet -/

variable (A) in
/-- The codec of an alphabet, with what it says of a text that it does not accept. -/
def Alphabet.engine (complaint : List UInt8 → String) : Engine where
  encode := Base64.encode A
  decode text :=
    match Base64.decode A text with
    | some bytes => .ok bytes
    | none => .error (complaint text)

theorem Alphabet.engine_lawful (complaint : List UInt8 → String) : (A.engine complaint).Lawful A := by
  refine ⟨fun bytes => ?_, fun text bytes h => ?_, length_encode, fun bytes c => mem_encode⟩
  · show (match Base64.decode A (Base64.encode A bytes) with
      | some bytes => Except.ok bytes
      | none => Except.error _) = _
    rw [Base64.decode_encode]
  · change (match Base64.decode A text with
      | some bytes => Except.ok bytes
      | none => Except.error (complaint text)) = _ at h
    cases hdecode : Base64.decode A text with
    | none =>
      rw [hdecode] at h
      cases h
    | some decoded =>
      rw [hdecode] at h
      cases h
      exact decode_eq_some_iff.mp hdecode

/-! ## The standard alphabet -/

/-- `A` to `Z`, `a` to `z`, `0` to `9`, `+` and `/`. -/
def standardSymbol (v : Nat) : UInt8 :=
  if v < 26 then UInt8.ofNat (65 + v)
  else if v < 52 then UInt8.ofNat (97 + (v - 26))
  else if v < 62 then UInt8.ofNat (48 + (v - 52))
  else if v = 62 then 43
  else 47

/-- What a symbol stands for. -/
def standardValue (c : UInt8) : Option Nat :=
  if 65 ≤ c.toNat ∧ c.toNat ≤ 90 then some (c.toNat - 65)
  else if 97 ≤ c.toNat ∧ c.toNat ≤ 122 then some (c.toNat - 97 + 26)
  else if 48 ≤ c.toNat ∧ c.toNat ≤ 57 then some (c.toNat - 48 + 52)
  else if c = 43 then some 62
  else if c = 47 then some 63
  else none

theorem standardSymbol_of_standardValue (c : UInt8) (v : Nat) (h : standardValue c = some v) :
    v < 64 ∧ standardSymbol v = c := by
  have hofNat : ∀ n, n = c.toNat → UInt8.ofNat n = c := by
    rintro n rfl
    exact UInt8.ofNat_toNat
  unfold standardValue at h
  unfold standardSymbol
  split at h
  · cases h
    exact ⟨by omega, by rw [if_pos (by omega)]; exact hofNat _ (by omega)⟩
  split at h
  · cases h
    exact ⟨by omega, by rw [if_neg (by omega), if_pos (by omega)]; exact hofNat _ (by omega)⟩
  split at h
  · cases h
    refine ⟨by omega, ?_⟩
    rw [if_neg (by omega), if_neg (by omega), if_pos (by omega)]
    exact hofNat _ (by omega)
  split at h
  · rename_i hc
    cases h
    exact ⟨by omega, hc.symm⟩
  split at h
  · rename_i hc
    cases h
    exact ⟨by omega, hc.symm⟩
  · cases h

/-- The alphabet of RFC 4648. -/
def standard : Alphabet where
  symbol := standardSymbol
  value := standardValue
  pad := 61
  value_symbol := by decide
  symbol_value := standardSymbol_of_standardValue
  value_pad := rfl

end Base64
