import AmpcCommon.Wire.Proofs.ParserProofs

/-!
# When the decoder panics

The parser of flat values returns on every byte string. The vector parser cuts out each element before
it has checked that the element ends inside the buffer, so it panics on the strings in which complete
elements are followed by one whose declared length runs past the end, and on no others.
-/

namespace AmpcCommon.Wire

open NetworkValue

/-! ## The parser of flat values -/

/-- The parser of flat values returns on every byte string. -/
theorem deserializeInternal_returns (serialized : Bytes) :
    (deserializeInternal serialized).Returns := by
  cases serialized with
  | nil => trivial
  | cons b tail =>
    rw [deserializeInternal]
    simp only [List.isEmpty_cons, Bool.false_eq_true, if_false, Bytes.index_cons_zero,
      Outcome.ok_bind]
    exact (DescriptorByte.tryFrom_returns b).bind fun d _ =>
      (deserializeBody_spec (List.cons_ne_nil b tail) d).returns

/-! ## Elements -/

/-- The string is one complete element: its declared length is its length, and its body consists of
whole words. -/
structure Element (e : Bytes) : Prop where
  declared : elementLen e e.length 0 = .ok e.length
  words : ∀ d tail, e = DescriptorByte.toByte d :: tail → d.width ∣ e.length - 5

/-- The string is a sequence of complete elements. -/
inductive Elements : Bytes → Prop where
  | nil : Elements []
  | cons {e es : Bytes} : Element e → Elements es → Elements (e ++ es)

/-- Complete elements are followed by one whose declared length runs past the end. -/
def Overruns (rest : Bytes) : Prop :=
  ∃ es last n, rest = es ++ last ∧ Elements es ∧
    elementLen last last.length 0 = .ok n ∧ last.length < n

theorem elementLen_inv {e : Bytes} {n : Nat} (h : elementLen e e.length 0 = .ok n) :
    ∃ d tail, e = DescriptorByte.toByte d :: tail ∧ elementLenBody e e.length 0 d = .ok n := by
  cases e with
  | nil => cases h
  | cons b tail =>
    rw [elementLen, Bytes.index_cons_zero, Outcome.ok_bind] at h
    obtain ⟨d, hd, hbody⟩ := Outcome.bind_eq_ok.mp h
    exact ⟨d, tail, by rw [DescriptorByte.tryFrom_eq_ok hd], hbody⟩

theorem elementLen_cons_zero (d : DescriptorByte) (tail : Bytes) (endIdx : Nat) :
    elementLen (d.toByte :: tail) endIdx 0 = elementLenBody (d.toByte :: tail) endIdx 0 d :=
  elementLen_cons [] d tail endIdx

theorem elementLenBody_eq (d : DescriptorByte) : ∃ msg, ∀ serialized endIdx idx,
    elementLenBody serialized endIdx idx d = match d.kind with
      | .fixed n => .ok n
      | .field f =>
        if endIdx < idx + 5 then .bail msg
        else readU32 serialized (idx + 1) >>= fun len => .ok (5 + f len)
      | .refused => .bail msg := by
  cases d
  case ringElementBit0 | ringElementBit1 | ringElement16 | ringElement32 | ringElement64
      | ringElement48 =>
    exact ⟨"", fun _ _ _ => rfl⟩
  all_goals exact ⟨_, fun _ _ _ => rfl⟩

/-- A header is the same header when more bytes follow. -/
theorem elementLen_append {e : Bytes} {n : Nat} (h : elementLen e e.length 0 = .ok n)
    (after : Bytes) : elementLen (e ++ after) (e ++ after).length 0 = .ok n := by
  obtain ⟨d, tail, rfl, hbody⟩ := elementLen_inv h
  obtain ⟨msg, heq⟩ := elementLenBody_eq d
  rw [List.cons_append, elementLen_cons_zero, heq]
  rw [heq] at hbody
  cases hk : d.kind with
  | fixed m =>
    rw [hk] at hbody
    exact hbody
  | refused =>
    rw [hk] at hbody
    cases hbody
  | field f =>
    rw [hk] at hbody
    simp only at hbody
    by_cases hlong : (d.toByte :: tail).length < 0 + 5
    · rw [if_pos hlong] at hbody
      cases hbody
    · have hread := @readLe_append_right (d.toByte :: tail) 4 1 (by omega) after
      rw [if_neg hlong] at hbody
      simp only
      rw [if_neg (by simp at hlong ⊢; omega), ← hbody]
      exact congrArg (· >>= fun len => Except.ok (5 + f len)) hread

/-- The parser looks at an element from its first byte on. -/
theorem elementLen_append_left (before rest : Bytes) :
    elementLen (before ++ rest) (before ++ rest).length before.length =
      elementLen rest rest.length 0 := by
  have hindex : Bytes.index (before ++ rest) before.length = rest.index 0 := by
    rw [Bytes.index, Bytes.index, List.getElem?_append_right (le_refl _), Nat.sub_self]
  rw [elementLen, elementLen, hindex]
  congr 1
  funext b
  congr 1
  funext d
  obtain ⟨msg, heq⟩ := elementLenBody_eq d
  rw [heq, heq, readU32, readU32, Nat.add_comm 0 1, readLe_append_left, List.length_append]
  cases d.kind with
  | fixed n => rfl
  | refused => rfl
  | field f =>
    simp only [Nat.add_lt_add_iff_left]

/-- A header is the same header when the bytes behind its element are cut off. -/
theorem elementLen_take {rest : Bytes} {n : Nat} (h : elementLen rest rest.length 0 = .ok n)
    (hfit : n ≤ rest.length) : elementLen (rest.take n) (rest.take n).length 0 = .ok n := by
  obtain ⟨d, tail, rfl, hbody⟩ := elementLen_inv h
  have hpos := elementLen_pos h
  obtain ⟨m, rfl⟩ : ∃ m, n = m + 1 := ⟨n - 1, by omega⟩
  obtain ⟨msg, heq⟩ := elementLenBody_eq d
  rw [List.take_succ_cons, elementLen_cons_zero, heq]
  rw [heq] at hbody
  cases hk : d.kind with
  | fixed k =>
    rw [hk] at hbody
    exact hbody
  | refused =>
    rw [hk] at hbody
    cases hbody
  | field f =>
    rw [hk] at hbody
    simp only at hbody
    by_cases hlong : (d.toByte :: tail).length < 0 + 5
    · rw [if_pos hlong] at hbody
      cases hbody
    · rw [if_neg hlong] at hbody
      obtain ⟨len, hread, hlen⟩ := Outcome.bind_eq_ok.mp hbody
      have hfive : 5 ≤ m + 1 := by
        have := Except.ok.inj hlen
        omega
      have htake : (d.toByte :: tail.take m).length = m + 1 := by
        rw [List.length_cons, List.length_take]
        rw [List.length_cons] at hfit
        omega
      have happ := @readLe_append_right (d.toByte :: tail.take m) 4 1 (by omega) (tail.drop m)
      rw [List.cons_append, List.take_append_drop] at happ
      simp only
      rw [if_neg (by omega), ← hbody]
      exact congrArg (· >>= fun len => Except.ok (5 + f len)) happ.symm

/-- Finding the length of an element never panics. -/
theorem elementLen_returns {rest : Bytes} (hne : rest ≠ []) :
    (elementLen rest rest.length 0).Returns := by
  obtain ⟨b, tail, rfl⟩ := List.exists_cons_of_ne_nil hne
  rw [elementLen, Bytes.index_cons_zero, Outcome.ok_bind]
  refine (DescriptorByte.tryFrom_returns b).bind fun d _ => ?_
  obtain ⟨msg, heq⟩ := elementLenBody_eq d
  rw [heq]
  cases d.kind with
  | fixed n => trivial
  | refused => trivial
  | field f =>
    simp only
    split_ifs with hlong
    · trivial
    · rw [readU32, readLe_eq_ok (by omega)]
      trivial

/-- The parser of flat values asks for the declared length, too. -/
theorem sized_of_declared {d : DescriptorByte} {tail : Bytes}
    (h : elementLenBody (d.toByte :: tail) (d.toByte :: tail).length 0 d = .ok (d.toByte :: tail).length) :
    d.flatKind.Sized (d.toByte :: tail) := by
  obtain ⟨msg, heq⟩ := elementLenBody_eq d
  rw [heq] at h
  cases hk : d.kind with
  | fixed n =>
    rw [hk] at h
    rw [DescriptorByte.flatKind_eq (by rw [hk]; exact ElementKind.noConfusion), hk]
    exact (Except.ok.inj h).symm
  | field f =>
    rw [hk] at h
    simp only at h
    split_ifs at h
    · cases h
    · obtain ⟨len, hread, hlen⟩ := Outcome.bind_eq_ok.mp h
      rw [DescriptorByte.flatKind_eq (by rw [hk]; exact ElementKind.noConfusion), hk]
      exact ⟨len, hread, (Except.ok.inj hlen).symm⟩
  | refused =>
    rw [hk] at h
    cases h

/-- A string of its declared length is parsed, provided that its body consists of whole words. -/
theorem deserializeInternal_succeeds_iff {e : Bytes} (h : elementLen e e.length 0 = .ok e.length) :
    (deserializeInternal e).Succeeds ↔ Element e := by
  obtain ⟨d, tail, rfl, hbody⟩ := elementLen_inv h
  have hsized := sized_of_declared hbody
  rw [deserializeInternal_cons, (deserializeBody_spec (List.cons_ne_nil _ tail) d).succeeds_iff]
  constructor
  · rintro ⟨-, hwords⟩
    refine ⟨h, fun d' tail' heq => ?_⟩
    rw [← DescriptorByte.toByte_injective (List.cons.inj heq).1]
    exact hwords
  · intro he
    exact ⟨hsized, he.words d tail rfl⟩

/-! ## The vector parser -/

/-- The first element of a sequence that goes on is the one the header declares. -/
theorem element_append_eq_take {e rest : Bytes} {n : Nat} (he : Element e)
    (hn : elementLen (e ++ rest) (e ++ rest).length 0 = .ok n) : e.length = n :=
  Except.ok.inj ((elementLen_append he.declared rest).symm.trans hn)

theorem overruns_cons {e : Bytes} (he : Element e) (rest : Bytes) : Overruns (e ++ rest) ↔ Overruns rest := by
  constructor
  · rintro ⟨es, last, n, heq, hes, hlast, hlt⟩
    cases hes with
    | nil =>
      -- no complete element before: the header at the front declares `e`, which is there
      rw [List.nil_append] at heq
      have := element_append_eq_take he (heq ▸ hlast)
      rw [← heq, List.length_append] at hlt
      omega
    | @cons e' es' he' hes' =>
      rw [List.append_assoc] at heq
      have hlen : e'.length = e.length := by
        have := elementLen_append he.declared rest
        rw [heq] at this
        exact element_append_eq_take he' this
      obtain ⟨-, hrest⟩ := List.append_inj heq hlen.symm
      exact ⟨es', last, n, hrest, hes', hlast, hlt⟩
  · rintro ⟨es, last, n, rfl, hes, hlast, hlt⟩
    exact ⟨e ++ es, last, n, by rw [List.append_assoc], .cons he hes, hlast, hlt⟩

/-- A header the parser rejects, or a first element it rejects, keeps the loop from overrunning. -/
theorem not_overruns {rest : Bytes} (h : ∀ n, elementLen rest rest.length 0 = .ok n →
    n ≤ rest.length ∧ ¬ Element (rest.take n)) : ¬ Overruns rest := by
  rintro ⟨es, last, n, rfl, hes, hlast, hlt⟩
  cases hes with
  | nil =>
    have := (h n hlast).1
    rw [List.nil_append] at this
    omega
  | @cons e es he hes =>
    rw [List.append_assoc] at h
    have := (h e.length (elementLen_append he.declared _)).2
    rw [List.take_left] at this
    exact this he

/-- The loop of the vector parser returns exactly when no element overruns. -/
theorem deserializeVecLoop_returns_iff (before rest : Bytes) (res : List NetworkValue) :
    (deserializeVecLoop (before ++ rest) (before ++ rest).length before.length res).Returns ↔
      ¬ Overruns rest := by
  induction hlen : rest.length using Nat.strong_induction_on generalizing before rest res with
  | _ k ih =>
  subst hlen
  have helem := elementLen_append_left before rest
  by_cases hrest : rest = []
  · subst hrest
    rw [deserializeVecLoop_end (by simp)]
    refine ⟨fun _ => not_overruns fun n hn => ?_, fun _ => trivial⟩
    cases hn
  · have hpos : 0 < rest.length := List.length_pos_of_ne_nil hrest
    have hlt : before.length < (before ++ rest).length := by
      simp only [List.length_append]
      omega
    cases hn : elementLen rest rest.length 0 with
    | error err =>
      rw [hn] at helem
      rw [deserializeVecLoop_error hlt helem]
      refine ⟨fun _ => not_overruns fun n hn' => ?_, fun _ => ?_⟩
      · rw [hn] at hn'
        cases hn'
      · have := elementLen_returns hrest
        rw [hn] at this
        cases err with
        | error msg => trivial
        | panic msg => exact this
    | ok n =>
      rw [hn] at helem
      rw [deserializeVecLoop_step hlt helem]
      by_cases hfit : n ≤ rest.length
      · have hslice : Bytes.slice (before ++ rest) before.length (before.length + n) =
            .ok (rest.take n) := by
          rw [Bytes.slice_eq_ok (by omega) (by simp; omega), List.drop_left,
            Nat.add_sub_cancel_left]
        have hlen : (rest.take n).length = n := by
          rw [List.length_take]
          omega
        have hsucc := deserializeInternal_succeeds_iff (e := rest.take n)
          ((elementLen_take hn hfit).trans (congrArg Except.ok hlen.symm))
        rw [hslice, Outcome.ok_bind]
        cases hparse : deserializeInternal (rest.take n) with
        | ok v =>
          have he := hsucc.mp ⟨v, hparse⟩
          have hn0 := elementLen_pos hn
          have ih := ih (rest.drop n).length (by rw [List.length_drop]; omega)
            (before ++ rest.take n) (rest.drop n) (res ++ [v]) rfl
          have hidx : (before ++ rest.take n).length = before.length + n := by
            rw [List.length_append, hlen]
          rw [List.append_assoc, List.take_append_drop, hidx] at ih
          rw [Outcome.ok_bind, ih]
          have := overruns_cons he (rest.drop n)
          rw [List.take_append_drop] at this
          rw [this]
        | error err =>
          refine ⟨fun _ => not_overruns fun n' hn' => ?_, fun _ => ?_⟩
          · rw [hn] at hn'
            cases hn'
            refine ⟨hfit, fun he => ?_⟩
            obtain ⟨v, hv⟩ := hsucc.mpr he
            rw [hparse] at hv
            cases hv
          · have := deserializeInternal_returns (rest.take n)
            rw [hparse] at this
            cases err with
            | error msg => trivial
            | panic msg => exact this
      · have hslice : Bytes.slice (before ++ rest) before.length (before.length + n) =
            .panicked "range out of range for slice" := by
          rw [Bytes.slice, if_neg]
          rintro ⟨-, hend⟩
          rw [List.length_append] at hend
          omega
        rw [hslice]
        refine ⟨fun hret => hret.elim, fun hno => hno ⟨[], rest, n, rfl, .nil, hn, ?_⟩⟩
        omega

/-- A `NetworkVec` message of the announced length in which an element declares more bytes than are
left. -/
structure TruncatedVec (serialized : Bytes) : Prop where
  descriptor : serialized.head? = some DescriptorByte.networkVec.toByte
  header : 5 ≤ serialized.length
  announced : readU32 serialized 1 = .ok (serialized.length - 5)
  overruns : Overruns (serialized.drop 5)

/-- **When the decoder returns.** `deserialize` ends on every byte string, with a value or an error,
unless the string is a `NetworkVec` of the announced length in which complete elements are followed by
one that runs past the end; on these it panics. -/
theorem deserialize_returns_iff (serialized : Bytes) :
    (deserialize serialized).Returns ↔ ¬ TruncatedVec serialized := by
  rw [deserialize]
  split_ifs with hvec
  · obtain ⟨tail, rfl⟩ : ∃ tail, serialized = DescriptorByte.networkVec.toByte :: tail := by
      cases serialized with
      | nil => cases hvec
      | cons b tail =>
        rw [List.head?_cons] at hvec
        exact ⟨tail, by rw [Option.some.inj hvec]⟩
    have hmap : ∀ o : Outcome (List NetworkValue),
        Outcome.Returns (o.map NetworkValue.networkVec) ↔ o.Returns := by
      rintro ((_ | _) | _) <;> rfl
    rw [hmap]
    generalize hs : DescriptorByte.networkVec.toByte :: tail = s at *
    have hindex : Bytes.index s 0 = .ok DescriptorByte.networkVec.toByte := by rw [← hs]; rfl
    by_cases hshort : s.length < 5
    · simp only [deserializeVec, if_pos hshort]
      exact ⟨fun _ ht => absurd ht.header (by omega), fun _ => trivial⟩
    · obtain ⟨len, hread⟩ : ∃ len, readU32 s 1 = .ok len := ⟨_, readLe_eq_ok (by omega)⟩
      by_cases hlen : s.length = 5 + len
      · have hloop : deserializeVec s = deserializeVecLoop s s.length 5 [] := by
          rw [hlen] at hshort
          simp only [deserializeVec, hlen, if_neg hshort, hindex, Outcome.ok_bind, hread, ne_eq,
            not_true_eq_false, if_false]
        have hreturns := deserializeVecLoop_returns_iff (s.take 5) (s.drop 5) []
        have hfive : (s.take 5).length = 5 := by
          rw [List.length_take]
          omega
        rw [List.take_append_drop, hfive] at hreturns
        rw [hloop, hreturns]
        refine not_congr ⟨fun hover => ⟨hvec, by omega, ?_, hover⟩, fun ht => ht.overruns⟩
        rw [hread, hlen, Nat.add_sub_cancel_left]
      · simp only [deserializeVec, if_neg hshort, hindex, Outcome.ok_bind, hread, ne_eq, hlen,
          not_true_eq_false, if_false, not_false_eq_true, if_true]
        refine ⟨fun _ ht => hlen ?_, fun _ => trivial⟩
        have := Except.ok.inj (hread.symm.trans ht.announced)
        have := ht.header
        omega
  · exact ⟨fun _ ht => hvec ht.descriptor, fun _ => deserializeInternal_returns serialized⟩

/-- Six bytes that announce a vector of one byte, in which a 16-bit element starts. -/
theorem deserialize_panics : ¬ (deserialize [0x0A, 1, 0, 0, 0, 0x03]).Returns := by
  have hloop : deserialize [0x0A, 1, 0, 0, 0, 0x03] =
      (deserializeVecLoop [0x0A, 1, 0, 0, 0, 0x03] 6 5 []).map .networkVec := rfl
  have hlen : elementLen [0x0A, 1, 0, 0, 0, 0x03] 6 5 = .ok 3 := rfl
  rw [hloop, deserializeVecLoop_step (by decide) hlen]
  exact id

end AmpcCommon.Wire
