import AffineArithmetic.Decimal.Text
import AffineArithmetic.Proofs.Binary64.Bits

/-!
# Numbers read back

The text of a number denotes the number that was written, bit for bit: digits are read up to the
point and beyond it, the zeros in front and those that a positive exponent writes out are worth what
they stand for, and the shortest decimal of a magnitude reads back to it. No text of a number starts
with a sign other than its own.
-/

namespace AffineArithmetic.Decimal

variable {c : Char} {whole fraction : List Char} {d : Decimal} {x : Float}

/-! ### Runs of characters -/

/-- A run of characters ends where the first other character stands. -/
theorem takeWhile_run {p : Char → Bool} {cs : List Char} (rest : List Char)
    (h : ∀ c ∈ cs, p c = true) (hrest : rest.takeWhile p = []) :
    (cs ++ rest).takeWhile p = cs ∧ (cs ++ rest).dropWhile p = rest := by
  have hsplit := List.takeWhile_append_dropWhile (p := p) (l := rest)
  rw [hrest, List.nil_append] at hsplit
  rw [List.takeWhile_append_of_pos h, List.dropWhile_append_of_pos h, hrest, hsplit,
    List.append_nil]
  exact ⟨rfl, rfl⟩

/-- Equal texts have equal runs in front, where other characters end the runs. -/
theorem run_append_inj {p : Char → Bool} {cs ds rest rest' : List Char}
    (hc : ∀ c ∈ cs, p c = true) (hd : ∀ c ∈ ds, p c = true) (hrest : rest.takeWhile p = [])
    (hrest' : rest'.takeWhile p = []) (h : cs ++ rest = ds ++ rest') : cs = ds ∧ rest = rest' := by
  obtain ⟨htake, hdrop⟩ := takeWhile_run rest hc hrest
  obtain ⟨htake', hdrop'⟩ := takeWhile_run rest' hd hrest'
  rw [h, htake'] at htake
  rw [h, hdrop'] at hdrop
  exact ⟨htake.symm, hdrop.symm⟩

/-- What holds of the ten digits holds of every digit. -/
theorem forall_digit {p : Char → Prop} (h : ∀ k < 10, p (Char.ofNat (48 + k)))
    (hc : c.isDigit = true) : p c := by
  obtain ⟨hl, hu⟩ := Char.isDigit_iff_toNat.mp hc
  have hl' : 48 ≤ c.toNat := hl
  have hu' : c.toNat ≤ 57 := hu
  have hk := h (c.toNat - 48) (by omega)
  rwa [show 48 + (c.toNat - 48) = c.toNat by omega, Char.ofNat_toNat] at hk

/-! ### Digits and their point -/

private theorem isDigit_replicate (n : ℕ) : ∀ c ∈ List.replicate n '0', c.isDigit = true := by
  intro c hc
  rw [List.eq_of_mem_replicate hc]
  rfl

private theorem isDigit_toDigits (n : ℕ) : ∀ c ∈ Nat.toDigits 10 n, c.isDigit = true :=
  fun _ hc ↦ Nat.isDigit_of_mem_toDigits (by decide) (by decide) hc

private theorem isDigit_append {cs ds : List Char} (h : ∀ c ∈ cs, c.isDigit = true)
    (h' : ∀ c ∈ ds, c.isDigit = true) : ∀ c ∈ cs ++ ds, c.isDigit = true := by
  intro c hc
  rcases List.mem_append.mp hc with hc | hc
  · exact h c hc
  · exact h' c hc

/-- Digits alone are a whole number. -/
theorem ofUnsigned?_digits (h : ∀ c ∈ whole, c.isDigit = true) (hne : whole ≠ []) :
    ofUnsigned? whole = some ⟨Nat.ofDigitChars 10 whole 0, 0⟩ := by
  obtain ⟨htake, hdrop⟩ := takeWhile_run [] h rfl
  rw [List.append_nil] at htake hdrop
  unfold ofUnsigned?
  simp only [htake, hdrop, List.append_nil, and_true, if_neg hne]
  rfl

/-- Digits around a point are worth as many places less as there are behind it. -/
theorem ofUnsigned?_point (h : ∀ c ∈ whole, c.isDigit = true)
    (h' : ∀ c ∈ fraction, c.isDigit = true) (hne : whole ≠ []) :
    ofUnsigned? (whole ++ '.' :: fraction) =
      some ⟨Nat.ofDigitChars 10 (whole ++ fraction) 0, -fraction.length⟩ := by
  obtain ⟨htake, hdrop⟩ := takeWhile_run ('.' :: fraction) h rfl
  obtain ⟨htake', hdrop'⟩ := takeWhile_run [] h' rfl
  rw [List.append_nil] at htake' hdrop'
  unfold ofUnsigned?
  simp only [htake, hdrop, htake', hdrop', hne, false_and, if_false]

/-- A decimal with places behind the point is written as digits around it, with zeros in front. -/
theorem positional_eq (h : (-d.exponent).toNat ≠ 0) :
    ∃ whole fraction k, d.positional = whole ++ '.' :: fraction ∧ whole ≠ [] ∧
      fraction.length = (-d.exponent).toNat ∧
      whole ++ fraction = List.replicate k '0' ++ Nat.toDigits 10 d.significand := by
  have hexp : d.exponent.toNat = 0 := by omega
  have hpos : 0 < (Nat.toDigits 10 d.significand).length := Nat.length_toDigits_pos
  generalize hn : (-d.exponent).toNat = n at h
  generalize hk : n + 1 - (Nat.toDigits 10 d.significand).length = k
  generalize hp : List.replicate k '0' ++ Nat.toDigits 10 d.significand = padded
  have hlen : n + 1 ≤ padded.length := by
    rw [← hp, List.length_append, List.length_replicate]
    omega
  refine ⟨padded.take (padded.length - n), padded.drop (padded.length - n), k, ?_, ?_, ?_, ?_⟩
  · unfold positional
    rw [hexp, hn, if_neg h, List.replicate_zero, List.append_nil, hk, hp]
  · rw [← List.length_pos_iff, List.length_take]
    omega
  · rw [List.length_drop]
    omega
  · rw [List.take_append_drop, hp]

/-- A decimal without places behind the point is written with the zeros of its exponent. -/
theorem positional_of_whole (h : (-d.exponent).toNat = 0) :
    d.positional = Nat.toDigits 10 d.significand ++ List.replicate d.exponent.toNat '0' := by
  unfold positional
  rw [h]
  rfl

/-- The first character of a decimal is a digit, and all are digits or the point. -/
theorem positional_chars (d : Decimal) :
    (∃ c cs, d.positional = c :: cs ∧ c.isDigit = true) ∧
      ∀ c ∈ d.positional, c.isDigit = true ∨ c = '.' := by
  by_cases h : (-d.exponent).toNat = 0
  · have hd := isDigit_append (isDigit_toDigits d.significand)
      (isDigit_replicate d.exponent.toNat)
    rw [← positional_of_whole h] at hd
    refine ⟨?_, fun c hc ↦ .inl (hd c hc)⟩
    cases hc : d.positional with
    | nil =>
      rw [positional_of_whole h, List.append_eq_nil_iff] at hc
      exact absurd hc.1 Nat.toDigits_ne_nil
    | cons c cs =>
      rw [hc] at hd
      exact ⟨c, cs, rfl, hd c List.mem_cons_self⟩
  · obtain ⟨whole, fraction, k, hd, hne, -, hdigits⟩ := positional_eq h
    have hall := isDigit_append (isDigit_replicate k) (isDigit_toDigits d.significand)
    rw [← hdigits] at hall
    rw [hd]
    constructor
    · cases whole with
      | nil => exact absurd rfl hne
      | cons c cs => exact ⟨c, cs ++ '.' :: fraction, rfl, hall c List.mem_cons_self⟩
    · intro c hc
      rw [List.mem_append, List.mem_cons] at hc
      rcases hc with hc | rfl | hc
      · exact .inl (hall c (List.mem_append_left _ hc))
      · exact .inr rfl
      · exact .inl (hall c (List.mem_append_right _ hc))

/-! ### Decimals -/

-- The zeros that an exponent writes out belong to the significand then.
private theorem toBits_shift (h : (-d.exponent).toNat = 0)
    (hb : d.toBits < Binary64.infinityBits) :
    toBits ⟨10 ^ d.exponent.toNat * d.significand, 0⟩ = d.toBits := by
  obtain ⟨n, e⟩ := d
  by_cases hn : n = 0
  · rw [toBits, toBits, if_pos hn, if_pos (by rw [hn, Nat.mul_zero])]
  have hpos : 10 ^ e.toNat * n ≠ 0 := Nat.mul_ne_zero (Nat.ne_of_gt (Nat.pow_pos (by decide))) hn
  have he : ¬ 310 < e := by
    intro he
    rw [toBits, if_neg hn, if_pos he] at hb
    exact Nat.lt_irrefl _ hb
  change (-e).toNat = 0 at h
  have hden : denominator ⟨10 ^ e.toNat * n, 0⟩ = denominator ⟨n, e⟩ := by
    rw [denominator, denominator, h]
    rfl
  have hnum : numerator ⟨10 ^ e.toNat * n, 0⟩ = numerator ⟨n, e⟩ := by
    change 10 ^ e.toNat * n * 10 ^ 0 = n * 10 ^ e.toNat
    rw [Nat.pow_zero, Nat.mul_one, Nat.mul_comm]
  rw [toBits, if_neg hpos, if_neg (by change ¬ (310 : ℤ) < 0; decide),
    if_neg (by change ¬ (0 : ℤ) < _; omega), toBits,
    if_neg hn, if_neg he, if_neg (by change ¬ e < _; omega), hden, hnum]

/-- The text of a decimal stands for a decimal of the same magnitude. -/
theorem ofUnsigned?_positional (hb : d.toBits < Binary64.infinityBits) :
    ∃ r, ofUnsigned? d.positional = some r ∧ r.toBits = d.toBits := by
  by_cases h : (-d.exponent).toNat = 0
  · have hne : Nat.toDigits 10 d.significand ++ List.replicate d.exponent.toNat '0' ≠ [] :=
      fun hnil ↦ Nat.toDigits_ne_nil (List.append_eq_nil_iff.mp hnil).1
    have hread := ofUnsigned?_digits (isDigit_append (isDigit_toDigits d.significand)
      (isDigit_replicate d.exponent.toNat)) hne
    rw [Nat.ofDigitChars_append, Nat.ofDigitChars_ten_toDigits,
      Nat.ofDigitChars_replicate_zero] at hread
    rw [positional_of_whole h]
    exact ⟨_, hread, toBits_shift h hb⟩
  · obtain ⟨whole, fraction, k, hd, hne, hlen, hdigits⟩ := positional_eq h
    have hall := isDigit_append (isDigit_replicate k) (isDigit_toDigits d.significand)
    rw [← hdigits] at hall
    have hread := ofUnsigned?_point (fun c hc ↦ hall c (List.mem_append_left _ hc))
      (fun c hc ↦ hall c (List.mem_append_right _ hc)) hne
    have hself : (⟨d.significand, -fraction.length⟩ : Decimal) = d := by
      have he : -(fraction.length : ℤ) = d.exponent := by omega
      rw [he]
    rw [hdigits, Nat.ofDigitChars_append, Nat.ofDigitChars_replicate_zero, Nat.mul_zero,
      Nat.ofDigitChars_ten_toDigits, hself, ← hd] at hread
    exact ⟨d, hread, rfl⟩

/-! ### Numbers -/

-- The words do not start with a digit.
private theorem readMagnitude?_of_isDigit {cs : List Char} (hc : c.isDigit = true) :
    readMagnitude? (c :: cs) =
      (ofUnsigned? (c :: cs)).map fun d ↦ Float.ofBits d.toBits.toUInt64 := by
  have hlower : c.toLower ≠ 'i' ∧ c.toLower ≠ 'n' :=
    forall_digit (p := fun c ↦ c.toLower ≠ 'i' ∧ c.toLower ≠ 'n') (by decide) hc
  have hword : ∀ {w : String} {a as}, w.toList = a :: as → c.toLower ≠ a →
      String.ofList ((c :: cs).map Char.toLower) ≠ w := by
    rintro w a as hw ha rfl
    rw [String.toList_ofList, List.map_cons] at hw
    exact ha (List.cons.inj hw).1
  unfold readMagnitude?
  dsimp only
  rw [if_neg, if_neg]
  · exact hword rfl hlower.2
  · rw [not_or]
    exact ⟨hword rfl hlower.1, hword rfl hlower.1⟩

/-- The text of a magnitude denotes the number with this magnitude as bit pattern. -/
theorem readMagnitude?_writeMagnitude (h : x.isNaN = false) :
    readMagnitude? (writeMagnitude x) =
      some (Float.ofBits (Binary64.magnitudeBits x).toUInt64) := by
  unfold writeMagnitude
  rw [h, if_neg Bool.false_ne_true]
  cases hi : x.isInf with
  | true =>
    rw [if_pos rfl, Binary64.magnitudeBits_of_isInf h hi]
    rfl
  | false =>
    have hbits := toBits_shortest (Binary64.magnitudeBits_lt_infinityBits h hi)
    have hlt := Binary64.magnitudeBits_lt_infinityBits h hi
    rw [← hbits] at hlt
    obtain ⟨r, hread, hr⟩ := ofUnsigned?_positional hlt
    obtain ⟨⟨c, cs, hd, hc⟩, -⟩ := positional_chars (shortest (Binary64.magnitudeBits x))
    rw [hd] at hread
    rw [if_neg Bool.false_ne_true, hd, readMagnitude?_of_isDigit hc, hread, Option.map_some, hr,
      hbits]

/-- The characters of the text of a number. -/
def IsNumberChar (c : Char) : Prop := c.isDigit = true ∨ c ∈ ['-', '.', 'i', 'n', 'f', 'N', 'a']

instance : DecidablePred IsNumberChar := fun c ↦
  inferInstanceAs (Decidable (c.isDigit = true ∨ c ∈ ['-', '.', 'i', 'n', 'f', 'N', 'a']))

private theorem writeMagnitude_chars (x : Float) :
    (∃ c cs, writeMagnitude x = c :: cs ∧ c ≠ '+' ∧ c ≠ '-') ∧
      ∀ c ∈ writeMagnitude x, IsNumberChar c := by
  unfold writeMagnitude
  split
  · refine ⟨⟨'N', ['a', 'N'], rfl, by decide, by decide⟩, ?_⟩
    simp [IsNumberChar]
  split
  · refine ⟨⟨'i', ['n', 'f'], rfl, by decide, by decide⟩, ?_⟩
    simp [IsNumberChar]
  · obtain ⟨⟨c, cs, hd, hc⟩, hall⟩ := positional_chars (shortest (Binary64.magnitudeBits x))
    refine ⟨⟨c, cs, hd, forall_digit (p := fun c ↦ c ≠ '+' ∧ c ≠ '-') (by decide) hc⟩, ?_⟩
    intro c hc
    rcases hall c hc with h | rfl
    · exact .inl h
    · exact .inr (by decide)

/-- A number is written with at least one character, and with no others than these. -/
theorem write_chars (x : Float) : write x ≠ [] ∧ ∀ c ∈ write x, IsNumberChar c := by
  obtain ⟨⟨c, cs, hd, -⟩, hall⟩ := writeMagnitude_chars x
  unfold write
  split
  · refine ⟨List.cons_ne_nil _ _, fun c hc ↦ ?_⟩
    rcases List.mem_cons.mp hc with rfl | hc
    · exact .inr List.mem_cons_self
    · exact hall c hc
  · exact ⟨hd ▸ List.cons_ne_nil c cs, hall⟩

/-- Every number but the undefined one reads back from its text, bit for bit. -/
theorem read?_write (h : x.isNaN = false) : read? (write x) = some x := by
  have hread := readMagnitude?_writeMagnitude h
  unfold write
  rw [h, Bool.not_false, Bool.and_true]
  cases hs : Binary64.isNegative x with
  | true =>
    rw [if_pos rfl]
    change (readMagnitude? (writeMagnitude x)).map (- ·) = some x
    rw [hread, Option.map_some, Binary64.neg_ofBits_magnitudeBits_of_isNegative h hs]
  | false =>
    obtain ⟨⟨c, cs, hd, hplus, hminus⟩, -⟩ := writeMagnitude_chars x
    rw [hd, Binary64.ofBits_magnitudeBits_of_not_isNegative h hs] at hread
    rw [if_neg Bool.false_ne_true, hd, read?]
    · exact hread
    · rintro _ ⟨⟩
      exact hplus rfl
    · rintro _ ⟨⟩
      exact hminus rfl

/-! ### Numbers told apart -/

variable {y : Float} {rest rest' : List Char}

/-- Numbers are told apart by their text, bit for bit. -/
theorem write_inj (hx : x.isNaN = false) (hy : y.isNaN = false) (h : write x = write y) :
    x = y := by
  have hread := read?_write hx
  rw [h, read?_write hy] at hread
  exact (Option.some.inj hread).symm

/-- The text of a number ends where a character follows that no number has. -/
theorem write_append_inj (hx : x.isNaN = false) (hy : y.isNaN = false) {a b : Char}
    (ha : ¬ IsNumberChar a) (hb : ¬ IsNumberChar b)
    (h : write x ++ a :: rest = write y ++ b :: rest') : x = y ∧ a = b ∧ rest = rest' := by
  have hrun : ∀ z : Float, ∀ c ∈ write z, decide (IsNumberChar c) = true :=
    fun z c hc ↦ decide_eq_true ((write_chars z).2 c hc)
  have hstop : ∀ {c : Char} (cs : List Char), ¬ IsNumberChar c →
      (c :: cs).takeWhile (fun c ↦ decide (IsNumberChar c)) = [] :=
    fun cs hc ↦ List.takeWhile_cons_of_neg (by rwa [decide_eq_true_iff])
  obtain ⟨hwrite, hrest⟩ :=
    run_append_inj (hrun x) (hrun y) (hstop rest ha) (hstop rest' hb) h
  exact ⟨write_inj hx hy hwrite, List.cons.inj hrest⟩

/-! ### Readable texts -/

/-- The characters of readable texts: digits, signs, the point, and the letters of exponents and of
the words for infinity and the undefined number. -/
def IsReadableChar (c : Char) : Prop :=
  c.isDigit = true ∨ c.toLower ∈ ['+', '-', '.', 'e', 'i', 'n', 'f', 't', 'y', 'a']

variable {cs : List Char}

private theorem isReadableChar_of_digits (h : ∀ c ∈ cs, c.isDigit = true) :
    ∀ c ∈ cs, IsReadableChar c := fun c hc ↦ .inl (h c hc)

private theorem isReadableChar_cons {d : Char} (hd : IsReadableChar d)
    (h : ∀ c ∈ cs, IsReadableChar c) : ∀ c ∈ d :: cs, IsReadableChar c :=
  List.forall_mem_cons.mpr ⟨hd, h⟩

private theorem natural?_chars {n : ℤ} (h : readExponent?.natural? cs = some n) :
    ∀ c ∈ cs, IsReadableChar c := by
  unfold readExponent?.natural? at h
  split at h
  · next hd => exact isReadableChar_of_digits (List.all_eq_true.mp hd.2)
  · contradiction

private theorem readExponent?_chars {n : ℤ} (h : readExponent? cs = some n) :
    ∀ c ∈ cs, IsReadableChar c := by
  unfold readExponent? at h
  split at h
  · exact isReadableChar_cons (.inr (by decide)) (natural?_chars h)
  · obtain ⟨n, hn, -⟩ := Option.map_eq_some_iff.mp h
    exact isReadableChar_cons (.inr (by decide)) (natural?_chars hn)
  · exact natural?_chars h

-- Behind the digits there is nothing, or an exponent.
private theorem exponentPart_chars {r : Decimal} {f : ℤ → Decimal}
    (h : (match cs with
      | [] => some r
      | e :: es => if e = 'e' ∨ e = 'E' then (readExponent? es).map f else none) = some d) :
    ∀ c ∈ cs, IsReadableChar c := by
  split at h
  · exact fun c hc ↦ absurd hc List.not_mem_nil
  · split at h
    · next he =>
      obtain ⟨n, hn, -⟩ := Option.map_eq_some_iff.mp h
      refine isReadableChar_cons ?_ (readExponent?_chars hn)
      rcases he with rfl | rfl <;> exact .inr (by decide)
    · contradiction

-- A text of digits and a readable rest is readable.
private theorem isReadableChar_of_dropWhile
    (h : ∀ c ∈ cs.dropWhile Char.isDigit, IsReadableChar c) : ∀ c ∈ cs, IsReadableChar c := by
  rw [← List.takeWhile_append_dropWhile (p := Char.isDigit) (l := cs)]
  intro c hc
  rcases List.mem_append.mp hc with hc | hc
  · exact .inl (List.mem_takeWhile_imp hc)
  · exact h c hc

private theorem ofUnsigned?_chars (h : ofUnsigned? cs = some d) : ∀ c ∈ cs, IsReadableChar c := by
  apply isReadableChar_of_dropWhile
  unfold ofUnsigned? at h
  dsimp only at h
  split at h
  · next r hr =>
    rw [hr]
    apply isReadableChar_cons (.inr (by decide))
    apply isReadableChar_of_dropWhile
    split at h
    · contradiction
    · exact exponentPart_chars h
  · split at h
    · contradiction
    · exact exponentPart_chars h

-- A word in any case.
private theorem isReadableChar_of_word {word : String}
    (hword : word.toList.all (· ∈ ['+', '-', '.', 'e', 'i', 'n', 'f', 't', 'y', 'a']) = true)
    (h : String.ofList (cs.map Char.toLower) = word) : ∀ c ∈ cs, IsReadableChar c := by
  intro c hc
  have hmem : c.toLower ∈ word.toList := by
    rw [← h, String.toList_ofList]
    exact List.mem_map_of_mem hc
  exact .inr (of_decide_eq_true (List.all_eq_true.mp hword _ hmem))

private theorem readMagnitude?_chars (h : readMagnitude? cs = some x) :
    ∀ c ∈ cs, IsReadableChar c := by
  unfold readMagnitude? at h
  dsimp only at h
  split at h
  · next hword => rcases hword with hw | hw <;> exact isReadableChar_of_word (by decide) hw
  split at h
  · next hw => exact isReadableChar_of_word (by decide) hw
  · obtain ⟨d, hd, -⟩ := Option.map_eq_some_iff.mp h
    exact ofUnsigned?_chars hd

/-- A number is read from texts of these characters only. -/
theorem read?_chars (h : read? cs = some x) : ∀ c ∈ cs, IsReadableChar c := by
  unfold read? at h
  split at h
  · exact isReadableChar_cons (.inr (by decide)) (readMagnitude?_chars h)
  · obtain ⟨y, hy, -⟩ := Option.map_eq_some_iff.mp h
    exact isReadableChar_cons (.inr (by decide)) (readMagnitude?_chars hy)
  · exact readMagnitude?_chars h

end AffineArithmetic.Decimal
