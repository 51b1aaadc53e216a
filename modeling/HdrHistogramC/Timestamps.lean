import HdrHistogramC.LogEntries

/-!
# Reading timestamps

The scanner reads the digits before the point into the seconds, and those after it into the
nanoseconds, each of which divides the multiplier by ten. After ten of them the multiplier is zero,
and after nineteen the digits may not fit a word any more.
-/
namespace HdrHistogramC
open Decimal

section Scan
variable {t c : UInt8} {ts : HdrTimespec} {ds fs rest : List UInt8} {n sec nsec mult : Int64}
  {k q : ℕ}

theorem appendDigit_cases (hc : IsDigit c) (hn : n.toInt = k) :
    (k * 10 + digit c < 2 ^ 63 ∧
      ∃ n', appendDigit n c = some n' ∧ n'.toInt = (k * 10 + digit c : ℕ)) ∨
    (2 ^ 63 ≤ k * 10 + digit c ∧ appendDigit n c = none) := by
  have hten : (10 : Int64).toInt = 10 := rfl
  have hdigit : (Int64.ofNat (digit c)).toInt = digit c :=
    Int64.toInt_ofNat_of_lt (by have := hc.digit_lt; omega)
  have hmul : n.toInt * (10 : Int64).toInt = (k * 10 : ℕ) := by
    rw [hn, hten]
    push_cast
    rfl
  rcases Nat.lt_or_ge (k * 10) (2 ^ 63) with hlt | hge
  · have htoInt : (Int64.ofInt (k * 10 : ℕ)).toInt = (k * 10 : ℕ) :=
      Int64.toInt_ofInt_of_le (by omega) (by omega)
    have hproduct : Checked.mul64 n 10 = some (Int64.ofInt (k * 10 : ℕ)) := by
      rw [Checked.mul64, Checked.int64_eq_some, hmul, htoInt]
    have happend : appendDigit n c =
        Checked.add64 (Int64.ofInt (k * 10 : ℕ)) (Int64.ofNat (digit c)) := by
      rw [appendDigit, hproduct, Option.bind_some]
    rcases Nat.lt_or_ge (k * 10 + digit c) (2 ^ 63) with hfit | hover
    · refine .inl ⟨hfit, _, happend.trans (Checked.add64_eq (by omega) (by omega)), ?_⟩
      rw [FixedWidth.add64 (by omega) (by omega)]
      omega
    · refine .inr ⟨hover, happend.trans ?_⟩
      rw [Checked.add64, Checked.int64_eq_none]
      omega
  · refine .inr ⟨by omega, ?_⟩
    have hproduct : Checked.mul64 n 10 = none := by
      rw [Checked.mul64, Checked.int64_eq_none]
      omega
    rw [appendDigit, hproduct, Option.bind_none]

theorem timestampLoop_stop (b : Bool) :
    timestampLoop t ts b sec nsec mult (t :: rest) =
      (Checked.mul64 nsec mult).map fun tvNsec => (true, ⟨sec, tvNsec⟩, rest) := by
  rw [timestampLoop, if_pos rfl]

theorem timestampLoop_point (ht : t ≠ '.'.toUInt8) (b : Bool) :
    timestampLoop t ts b sec nsec mult ('.'.toUInt8 :: rest) =
      timestampLoop t ts false sec nsec mult rest := by
  rw [timestampLoop, if_neg ht, if_pos rfl]

theorem timestampLoop_digit (ht : ¬ IsDigit t) (hc : IsDigit c) (b : Bool) :
    timestampLoop t ts b sec nsec mult (c :: rest) =
      if b then (appendDigit sec c).bind fun sec => timestampLoop t ts b sec nsec mult rest
      else (appendDigit nsec c).bind fun nsec =>
        timestampLoop t ts b sec nsec (mult / 10) rest := by
  have hpoint : '.'.toUInt8 ≠ c := by
    rintro rfl
    exact absurd hc (by decide)
  have hstop : t ≠ c := by
    rintro rfl
    exact ht hc
  rw [timestampLoop, if_neg hstop, if_neg hpoint, if_pos hc]

theorem timestampLoop_refuse (b : Bool)
    (hrest : ∀ c ∈ rest.head?, ¬ IsDigit c ∧ c ≠ '.'.toUInt8 ∧ c ≠ t) :
    ∃ rest', timestampLoop t ts b sec nsec mult rest = some (false, ts, rest') := by
  cases rest with
  | nil => exact ⟨[], rfl⟩
  | cons c rest =>
      obtain ⟨hdigit, hpoint, hstop⟩ := hrest c rfl
      refine ⟨rest, ?_⟩
      rw [timestampLoop, if_neg hstop.symm, if_neg hpoint.symm, if_neg hdigit]

/-- The digits before the point are read while they fit a word. -/
theorem timestampLoop_seconds (ts : HdrTimespec) (rest : List UInt8) (nsec mult : Int64)
    (ht : ¬ IsDigit t) (hds : ∀ c ∈ ds, IsDigit c) (hsec : sec.toInt = k) :
    (value k ds < 2 ^ 63 ∧ ∃ sec' : Int64, sec'.toInt = value k ds ∧
      timestampLoop t ts true sec nsec mult (ds ++ rest) =
        timestampLoop t ts true sec' nsec mult rest) ∨
    (2 ^ 63 ≤ value k ds ∧ timestampLoop t ts true sec nsec mult (ds ++ rest) = none) := by
  induction ds generalizing sec k with
  | nil => exact .inl ⟨by have := sec.toInt_lt; rw [value_nil]; omega, sec, hsec, rfl⟩
  | cons c ds ih =>
      have hle := le_value (k * 10 + digit c) ds
      rw [value_cons, List.cons_append, timestampLoop_digit ht (hds c (by simp)), if_pos rfl]
      rcases appendDigit_cases (hds c (by simp)) hsec with ⟨-, n, happend, hn⟩ | ⟨hover, happend⟩
      · rw [happend, Option.bind_some]
        exact ih (fun d hd => hds d (List.mem_cons_of_mem _ hd)) hn
      · rw [happend, Option.bind_none]
        exact .inr ⟨by omega, rfl⟩

/-- The digits after the point are read while they fit a word; further points make no difference.
Every digit takes a zero from the multiplier, down to nothing. -/
theorem timestampLoop_fraction (ts : HdrTimespec) (rest : List UInt8) (sec : Int64)
    (ht : ¬ IsDigit t) (hpoint : t ≠ '.'.toUInt8)
    (hfs : ∀ c ∈ fs, IsDigit c ∨ c = '.'.toUInt8) (hnsec : nsec.toInt = k)
    (hmult : mult.toInt = q) :
    (value k (fs.filter IsDigit) < 2 ^ 63 ∧ ∃ nsec' mult' : Int64,
      nsec'.toInt = value k (fs.filter IsDigit) ∧
      mult'.toInt = (q / 10 ^ (fs.filter IsDigit).length : ℕ) ∧
      timestampLoop t ts false sec nsec mult (fs ++ rest) =
        timestampLoop t ts false sec nsec' mult' rest) ∨
    (2 ^ 63 ≤ value k (fs.filter IsDigit) ∧
      timestampLoop t ts false sec nsec mult (fs ++ rest) = none) := by
  induction fs generalizing nsec mult k q with
  | nil =>
      refine .inl ⟨?_, nsec, mult, hnsec, ?_, rfl⟩
      · have := nsec.toInt_lt
        rw [List.filter_nil, value_nil]
        omega
      · rw [List.filter_nil, List.length_nil, pow_zero, Nat.div_one, hmult]
  | cons c fs ih =>
      have htail : ∀ d ∈ fs, IsDigit d ∨ d = '.'.toUInt8 :=
        fun d hd => hfs d (List.mem_cons_of_mem _ hd)
      by_cases hc : IsDigit c
      · have hle := le_value (k * 10 + digit c) (fs.filter IsDigit)
        have hdiv : (mult / 10).toInt = (q / 10 : ℕ) := by
          have hlt := mult.toInt_lt
          have hten : (10 : Int64).toInt = 10 := rfl
          rw [Int64.toInt_div, hten, Int.tdiv_eq_ediv_of_nonneg (by omega), hmult,
            FixedWidth.bmod64 (by omega) (by omega)]
          omega
        have hquotient : q / 10 ^ ((fs.filter IsDigit).length + 1) =
            q / 10 / 10 ^ (fs.filter IsDigit).length := by
          rw [Nat.div_div_eq_div_mul, pow_succ']
        rw [List.filter_cons_of_pos (by exact decide_eq_true hc), value_cons, List.length_cons,
          hquotient, List.cons_append, timestampLoop_digit ht hc, if_neg Bool.false_ne_true]
        rcases appendDigit_cases hc hnsec with ⟨-, n, happend, hn⟩ | ⟨hover, happend⟩
        · rw [happend, Option.bind_some]
          exact ih htail hn hdiv
        · rw [happend, Option.bind_none]
          exact .inr ⟨by omega, rfl⟩
      · obtain rfl : c = '.'.toUInt8 := (hfs c (by simp)).resolve_left hc
        rw [List.filter_cons_of_neg (by exact fun h => hc (of_decide_eq_true h)), List.cons_append,
          timestampLoop_point hpoint]
        exact ih htail hnsec hmult

end Scan

section Timestamp
variable {t : UInt8} {ds fs : List UInt8}

/-- After nine digits at most the number of nanoseconds is below a thousand million, and after more
the multiplier is zero. -/
theorem scaled_lt (hfs : ∀ c ∈ fs, IsDigit c) :
    value 0 fs * (10 ^ 9 / 10 ^ fs.length) < 10 ^ 9 := by
  have hvalue : value 0 fs < 10 ^ fs.length := by simpa using value_lt (n := 0) hfs
  rcases Nat.lt_or_ge 9 fs.length with hlong | hnine
  · rw [Nat.div_eq_of_lt (Nat.pow_lt_pow_right (by omega) hlong)]
    omega
  · rw [Nat.pow_div hnine (by omega)]
    calc value 0 fs * 10 ^ (9 - fs.length) < 10 ^ fs.length * 10 ^ (9 - fs.length) := by gcongr
      _ = 10 ^ 9 := by rw [← pow_add, Nat.add_sub_cancel' hnine]

theorem readAheadTimestamp_digits (ts : HdrTimespec) (rest : List UInt8) (ht : ¬ IsDigit t)
    (hpoint : t ≠ '.'.toUInt8) (hds : ∀ c ∈ ds, IsDigit c) (hfs : ∀ c ∈ fs, IsDigit c)
    (hfit : value 0 ds < 2 ^ 63) :
    (value 0 fs < 2 ^ 63 ∧ ∃ tv,
      readAheadTimestamp (ds ++ '.'.toUInt8 :: (fs ++ t :: rest)) ts t = some (true, tv, rest) ∧
      tv.tvSec.toInt = value 0 ds ∧
      tv.tvNsec.toInt = (value 0 fs * (10 ^ 9 / 10 ^ fs.length) : ℕ)) ∨
    (2 ^ 63 ≤ value 0 fs ∧
      readAheadTimestamp (ds ++ '.'.toUInt8 :: (fs ++ t :: rest)) ts t = none) := by
  have hall : fs.filter IsDigit = fs :=
    List.filter_eq_self.mpr fun c hc => decide_eq_true (hfs c hc)
  have hscaled := scaled_lt hfs
  obtain ⟨-, sec, hsec, hseconds⟩ := (timestampLoop_seconds ts ('.'.toUInt8 :: (fs ++ t :: rest)) 0
    1000000000 ht hds Int64.toInt_zero).resolve_right fun h => Nat.not_le.mpr hfit h.1
  have hread : readAheadTimestamp (ds ++ '.'.toUInt8 :: (fs ++ t :: rest)) ts t =
      timestampLoop t ts false sec 0 1000000000 (fs ++ t :: rest) := by
    rw [readAheadTimestamp, hseconds, timestampLoop_point hpoint]
  have hfraction := timestampLoop_fraction (q := 10 ^ 9) ts (t :: rest) sec ht hpoint
    (fun c hc => .inl (hfs c hc)) Int64.toInt_zero (show (1000000000 : Int64).toInt = _ from rfl)
  rw [hall, ← hread] at hfraction
  refine hfraction.imp_left fun ⟨hlt, nsec, mult, hnsec, hmult, hloop⟩ => ⟨hlt, ?_⟩
  have hproduct : nsec.toInt * mult.toInt = (value 0 fs * (10 ^ 9 / 10 ^ fs.length) : ℕ) := by
    rw [hnsec, hmult]
    exact (Nat.cast_mul ..).symm
  have htoInt : (Int64.ofInt (value 0 fs * (10 ^ 9 / 10 ^ fs.length) : ℕ)).toInt =
      (value 0 fs * (10 ^ 9 / 10 ^ fs.length) : ℕ) :=
    Int64.toInt_ofInt_of_le (by omega) (by omega)
  have hmul : Checked.mul64 nsec mult =
      some (Int64.ofInt (value 0 fs * (10 ^ 9 / 10 ^ fs.length) : ℕ)) := by
    rw [Checked.mul64, Checked.int64_eq_some, hproduct, htoInt]
  refine ⟨⟨sec, Int64.ofInt (value 0 fs * (10 ^ 9 / 10 ^ fs.length) : ℕ)⟩, ?_, hsec, htoInt⟩
  rw [hloop, timestampLoop_stop, hmul]
  rfl

/-- Digits that fit, a point and up to nine digits are read as seconds and nanoseconds. -/
theorem readAheadTimestamp_eq (ts : HdrTimespec) (rest : List UInt8) (ht : ¬ IsDigit t)
    (hpoint : t ≠ '.'.toUInt8) (hds : ∀ c ∈ ds, IsDigit c) (hfs : ∀ c ∈ fs, IsDigit c)
    (hfit : value 0 ds < 2 ^ 63) (hnine : fs.length ≤ 9) :
    ∃ tv, readAheadTimestamp (ds ++ '.'.toUInt8 :: (fs ++ t :: rest)) ts t = some (true, tv, rest) ∧
      tv.tvSec.toInt = value 0 ds ∧ tv.tvNsec.toInt = value 0 fs * 10 ^ (9 - fs.length) := by
  have hvalue : value 0 fs < 10 ^ fs.length := by simpa using value_lt (n := 0) hfs
  have hpow : 10 ^ fs.length ≤ 10 ^ 9 := Nat.pow_le_pow_right (by omega) hnine
  obtain ⟨-, tv, hread, hsec, hnsec⟩ :=
    (readAheadTimestamp_digits ts rest ht hpoint hds hfs hfit).resolve_right fun h =>
      Nat.not_le.mpr (by omega) h.1
  rw [Nat.pow_div hnine (by omega)] at hnsec
  refine ⟨tv, hread, hsec, hnsec.trans ?_⟩
  push_cast
  rfl

end Timestamp

/-- The terminator is reached, and the timestamp has the value of the text in nanoseconds. -/
def TimestampParsed (t : UInt8) (ts : HdrTimespec) (ds fs rest : List UInt8) : Prop :=
  ∃ tv, readAheadTimestamp (ds ++ '.'.toUInt8 :: (fs ++ t :: rest)) ts t = some (true, tv, rest) ∧
    tv.tvSec.toInt = value 0 ds ∧
    tv.tvNsec.toInt = ⌊(value 0 fs : ℚ) / 10 ^ fs.length * 10 ^ 9⌋ ∧
    0 ≤ tv.tvNsec.toInt ∧ tv.tvNsec.toInt < 10 ^ 9

def TimestampRefused (t : UInt8) (ts : HdrTimespec) (text : List UInt8) : Prop :=
  ∃ tv rest, readAheadTimestamp text ts t = some (false, tv, rest)

def secondsDigits (cs : List UInt8) : List UInt8 := cs.takeWhile IsDigit

/-- The digits after the first point; the others are skipped. -/
def fractionDigits (cs : List UInt8) : List UInt8 := (cs.dropWhile IsDigit).filter IsDigit

section Exact
variable {t : UInt8} {ts : HdrTimespec} {ds fs cs rest : List UInt8}

theorem timestampParsed_iff (ht : ¬ IsDigit t) (hpoint : t ≠ '.'.toUInt8)
    (hds : ∀ c ∈ ds, IsDigit c) (hfs : ∀ c ∈ fs, IsDigit c) (hfit : value 0 ds < 2 ^ 63) :
    TimestampParsed t ts ds fs rest ↔
      fs.length ≤ 9 ∨ (value 0 fs < 2 ^ 63 ∧ ∀ c ∈ fs.take 9, c = '0'.toUInt8) := by
  have hvalue : value 0 fs < 10 ^ fs.length := by simpa using value_lt (n := 0) hfs
  have hscaled := scaled_lt hfs
  rcases readAheadTimestamp_digits ts rest ht hpoint hds hfs hfit with
    ⟨hlt, tv, hread, hsec, hnsec⟩ | ⟨hover, hnone⟩
  · have hparsed : TimestampParsed t ts ds fs rest ↔
        tv.tvNsec.toInt = ⌊(value 0 fs : ℚ) / 10 ^ fs.length * 10 ^ 9⌋ := by
      constructor
      · rintro ⟨tv', hread', -, hfloor, -⟩
        rw [hread] at hread'
        cases hread'
        exact hfloor
      · intro hfloor
        exact ⟨tv, hread, hsec, hfloor, by omega, by omega⟩
    rw [hparsed, hnsec]
    rcases Nat.lt_or_ge 9 fs.length with hlong | hnine
    · have hzero : 10 ^ 9 / 10 ^ fs.length = 0 :=
        Nat.div_eq_of_lt (Nat.pow_lt_pow_right (by omega) hlong)
      have htake : ∀ c ∈ fs.take 9, IsDigit c := fun c hc => hfs c (List.mem_of_mem_take hc)
      rw [floor_fraction hfs hlong.le, hzero, Nat.mul_zero, Int.natCast_inj, eq_comm,
        value_eq_zero_iff htake, iff_true_intro rfl, true_and, iff_true_intro hlt, true_and]
      exact ⟨.inr, fun h => h.resolve_left (by omega)⟩
    · refine iff_of_true ?_ (.inl hnine)
      rw [floor_fraction_of_le hnine, Nat.pow_div hnine (by omega)]
      push_cast
      rfl
  · have hpow : 9 < fs.length := by
      by_contra hnine
      have : 10 ^ fs.length ≤ 10 ^ 9 := Nat.pow_le_pow_right (by omega) (by omega)
      omega
    refine iff_of_false ?_ (by omega)
    rintro ⟨tv, hread, -⟩
    rw [hnone] at hread
    cases hread

theorem timestampRefused_iff (ht : ¬ IsDigit t) (hpoint : t ≠ '.'.toUInt8)
    (hcs : ∀ c ∈ cs, IsDigit c ∨ c = '.'.toUInt8)
    (hrest : ∀ c ∈ rest.head?, ¬ IsDigit c ∧ c ≠ '.'.toUInt8 ∧ c ≠ t) :
    TimestampRefused t ts (cs ++ rest) ↔
      value 0 (secondsDigits cs) < 2 ^ 63 ∧ value 0 (fractionDigits cs) < 2 ^ 63 := by
  have hds : ∀ c ∈ secondsDigits cs, IsDigit c := by
    intro c hc
    simpa using List.mem_takeWhile_imp (p := fun c => decide (IsDigit c)) hc
  have hsplit : cs ++ rest = secondsDigits cs ++ (cs.dropWhile IsDigit ++ rest) := by
    rw [← List.append_assoc, secondsDigits, List.takeWhile_append_dropWhile]
  have hundefined : readAheadTimestamp (cs ++ rest) ts t = none →
      ¬ TimestampRefused t ts (cs ++ rest) := by
    rintro hnone ⟨tv, rest', hread⟩
    rw [hnone] at hread
    cases hread
  rcases timestampLoop_seconds ts (cs.dropWhile IsDigit ++ rest) 0 1000000000 ht hds
    Int64.toInt_zero with ⟨hfit, sec, -, hseconds⟩ | ⟨hover, hseconds⟩
  · rw [← hsplit] at hseconds
    rw [iff_true_intro hfit, true_and]
    generalize hfraction : cs.dropWhile IsDigit = fs at hseconds
    rw [fractionDigits, hfraction]
    cases fs with
    | nil =>
        obtain ⟨rest', hrefuse⟩ := timestampLoop_refuse true hrest
        exact iff_of_true ⟨ts, rest', hseconds.trans hrefuse⟩ (by decide)
    | cons c fs =>
        have hmem : ∀ d ∈ c :: fs, d ∈ cs := by
          rw [← hfraction]
          exact fun d hd => (List.dropWhile_sublist _).subset hd
        have hc : ¬ IsDigit c := by
          have hhead := List.head?_dropWhile_not IsDigit cs
          rw [hfraction] at hhead
          simpa using hhead
        obtain rfl : c = '.'.toUInt8 := (hcs c (hmem c (by simp))).resolve_left hc
        rw [List.cons_append, timestampLoop_point hpoint] at hseconds
        rw [List.filter_cons_of_neg (by exact fun h => hc (of_decide_eq_true h))]
        rcases timestampLoop_fraction (q := 10 ^ 9) ts rest sec ht hpoint
            (fun d hd => hcs d (hmem d (List.mem_cons_of_mem _ hd))) Int64.toInt_zero
            (show (1000000000 : Int64).toInt = _ from rfl) with
          ⟨hlt, nsec, mult, -, -, hloop⟩ | ⟨hover, hloop⟩
        · obtain ⟨rest', hrefuse⟩ := timestampLoop_refuse false hrest
          exact iff_of_true ⟨ts, rest', hseconds.trans (hloop.trans hrefuse)⟩ hlt
        · exact iff_of_false (hundefined (hseconds.trans hloop)) (Nat.not_lt.mpr hover)
  · rw [← hsplit] at hseconds
    exact iff_of_false (hundefined hseconds) fun h => Nat.not_lt.mpr hover h.1

end Exact

/-- A timestamp is read exactly when its fraction has nine digits at most, or begins with nine zeros
and fits a word. Other texts are refused when their digits fit words. The terminator is a `char`
that `fgetc` can return. -/
theorem timestamps_parse_iff {t : UInt8} (_ : t < 128) (ht : ¬ IsDigit t)
    (hpoint : t ≠ '.'.toUInt8) (ts : HdrTimespec) :
    (∀ ds fs rest : List UInt8, ds ≠ [] → (∀ c ∈ ds, IsDigit c) → (∀ c ∈ fs, IsDigit c) →
      value 0 ds < 2 ^ 63 →
        (TimestampParsed t ts ds fs rest ↔
          fs.length ≤ 9 ∨ (value 0 fs < 2 ^ 63 ∧ ∀ c ∈ fs.take 9, c = '0'.toUInt8))) ∧
    (∀ cs rest : List UInt8, (∀ c ∈ cs, IsDigit c ∨ c = '.'.toUInt8) →
      (∀ c ∈ rest.head?, ¬ IsDigit c ∧ c ≠ '.'.toUInt8 ∧ c ≠ t) →
        (TimestampRefused t ts (cs ++ rest) ↔
          value 0 (secondsDigits cs) < 2 ^ 63 ∧ value 0 (fractionDigits cs) < 2 ^ 63)) :=
  ⟨fun _ _ _ _ hds hfs hfit => timestampParsed_iff ht hpoint hds hfs hfit,
    fun _ _ hcs hrest => timestampRefused_iff ht hpoint hcs hrest⟩

/-- The tenth digit of a fraction makes nothing of the others. -/
theorem timestamp_losesFraction :
    readAheadTimestamp (ascii "1.1234567890,") ⟨0, 0⟩ ','.toUInt8 = some (true, ⟨1, 0⟩, []) ∧
      ¬ TimestampParsed ','.toUInt8 ⟨0, 0⟩ (ascii "1") (ascii "1234567890") [] := by
  have hread : readAheadTimestamp (ascii "1.1234567890,") ⟨0, 0⟩ ','.toUInt8 =
      some (true, ⟨1, 0⟩, []) := by decide +kernel
  have hvalue : value 0 (ascii "1234567890") = 1234567890 := by decide +kernel
  refine ⟨hread, ?_⟩
  rintro ⟨tv, hparsed, -, hfloor, -⟩
  obtain rfl : tv = ⟨1, 0⟩ := by
    have heq := hread.symm.trans hparsed
    simpa using heq.symm
  rw [hvalue, show (ascii "1234567890").length = 10 from rfl] at hfloor
  norm_num at hfloor
  exact absurd hfloor (by decide)

theorem timestamps_parse_sample :
    TimestampParsed ','.toUInt8 ⟨0, 0⟩ (ascii "1403476110") (ascii "0830") (ascii "\n") ∧
      TimestampRefused ','.toUInt8 ⟨0, 0⟩ (ascii "1403.476" ++ ascii "x,") := by
  obtain ⟨parsed, refused⟩ :=
    timestamps_parse_iff (t := ','.toUInt8) (by decide) (by decide) (by decide) ⟨0, 0⟩
  constructor
  · exact (parsed (ascii "1403476110") (ascii "0830") (ascii "\n") (List.cons_ne_nil _ _)
      (by decide +kernel) (by decide +kernel) (by decide +kernel)).mpr (.inl (by decide))
  · exact (refused (ascii "1403.476") (ascii "x,") (by decide +kernel) (by decide +kernel)).mpr
      (by decide +kernel)

end HdrHistogramC
