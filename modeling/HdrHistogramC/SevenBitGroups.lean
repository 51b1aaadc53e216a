import Mathlib

/-!
# Numbers in groups of seven bits

A number is written lowest group first. A byte of at least 128 says that another
group follows; after `n` groups one last byte is taken as it is. Reading is given
as the number of bytes consumed and the value.
-/
namespace HdrHistogramC.SevenBitGroups

def writeGroups : ℕ → ℕ → List ℕ
  | 0, v => [v]
  | n + 1, v => if v < 128 then [v] else (v % 128 + 128) :: writeGroups n (v / 128)

def readGroups : ℕ → List ℕ → Option (ℕ × ℕ)
  | _, [] => none
  | 0, b :: _ => some (1, b)
  | n + 1, b :: bs =>
      if b < 128 then some (1, b) else (readGroups n bs).map fun r => (r.1 + 1, b - 128 + 128 * r.2)

theorem writeGroups_length (n v : ℕ) :
    1 ≤ (writeGroups n v).length ∧ (writeGroups n v).length ≤ n + 1 := by
  induction n generalizing v with
  | zero => simp [writeGroups]
  | succ n ih =>
      have := ih (v / 128)
      rw [writeGroups]
      split_ifs
      · simp
      · rw [List.length_cons]
        omega

theorem readGroups_writeGroups (n v : ℕ) (rest : List ℕ) :
    readGroups n (writeGroups n v ++ rest) = some ((writeGroups n v).length, v) := by
  induction n generalizing v with
  | zero => rfl
  | succ n ih =>
      rw [writeGroups]
      split_ifs with h
      · simp [readGroups, h]
      · rw [List.cons_append, readGroups, if_neg (by omega), ih, Option.map_some, List.length_cons,
          Nat.add_sub_cancel]
        have := Nat.mod_add_div v 128
        simp only [Option.some.injEq, Prod.mk.injEq, true_and]
        omega

theorem readGroups_le {n : ℕ} {bs : List ℕ} {r : ℕ × ℕ} (h : readGroups n bs = some r) :
    1 ≤ r.1 ∧ r.1 ≤ n + 1 ∧ r.1 ≤ bs.length := by
  induction n generalizing bs r with
  | zero =>
      cases bs with
      | nil => cases h
      | cons b bs => cases h; simp
  | succ n ih =>
      cases bs with
      | nil => cases h
      | cons b bs =>
          rw [readGroups] at h
          split_ifs at h with hb
          · cases h; simp
          · obtain ⟨s, hs, rfl⟩ := Option.map_eq_some_iff.mp h
            have := ih hs
            simp only [List.length_cons]
            omega

theorem readGroups_append {n : ℕ} {bs : List ℕ} {r : ℕ × ℕ} (h : readGroups n bs = some r)
    (rest : List ℕ) : readGroups n (bs ++ rest) = some r := by
  induction n generalizing bs r with
  | zero =>
      cases bs with
      | nil => cases h
      | cons b bs => exact h
  | succ n ih =>
      cases bs with
      | nil => cases h
      | cons b bs =>
          rw [readGroups] at h
          rw [List.cons_append, readGroups]
          split_ifs at h ⊢ with hb
          · exact h
          · obtain ⟨s, hs, rfl⟩ := Option.map_eq_some_iff.mp h
            rw [ih hs, Option.map_some]

theorem readGroups_take {n : ℕ} {bs : List ℕ} {r : ℕ × ℕ} (h : readGroups n bs = some r) :
    readGroups n (bs.take r.1) = some r := by
  induction n generalizing bs r with
  | zero =>
      cases bs with
      | nil => cases h
      | cons b bs => cases h; rfl
  | succ n ih =>
      cases bs with
      | nil => cases h
      | cons b bs =>
          rw [readGroups] at h
          split_ifs at h with hb
          · cases h
            simp [readGroups, hb]
          · obtain ⟨s, hs, rfl⟩ := Option.map_eq_some_iff.mp h
            rw [List.take_succ_cons, readGroups, if_neg hb, ih hs, Option.map_some]

/-- The only bytes that cannot be read are too few bytes that all announce another. -/
theorem readGroups_eq_none_iff {n : ℕ} {bs : List ℕ} :
    readGroups n bs = none ↔ bs.length ≤ n ∧ ∀ b ∈ bs, 128 ≤ b := by
  induction n generalizing bs with
  | zero =>
      cases bs with
      | nil => simp [readGroups]
      | cons b bs => simp [readGroups]
  | succ n ih =>
      cases bs with
      | nil => simp [readGroups]
      | cons b bs =>
          rw [readGroups]
          split_ifs with hb
          · simp only [false_iff, not_and, List.forall_mem_cons]
            omega
          · rw [Option.map_eq_none_iff, ih, List.length_cons, List.forall_mem_cons]
            constructor
            · exact fun ⟨hl, hall⟩ => ⟨by omega, by omega, hall⟩
            · exact fun ⟨hl, _, hall⟩ => ⟨by omega, hall⟩

/-- Some bytes are the groups of a number: at most `n` of seven bits, where a byte below
128 is the last, or after `n` of them one that is taken as it is. -/
inductive Groups : ℕ → List ℕ → ℕ → Prop
  | last {n b : ℕ} : b < 128 → Groups n [b] b
  | full {b : ℕ} : Groups 0 [b] b
  | more {n b v : ℕ} {bs : List ℕ} : 128 ≤ b → Groups n bs v →
      Groups (n + 1) (b :: bs) (b - 128 + 128 * v)

theorem Groups.lt {n v : ℕ} {bs : List ℕ} (h : Groups n bs v) (hb : ∀ b ∈ bs, b < 256) :
    v < 2 ^ (7 * n + 8) := by
  induction h with
  | @last n b hlast =>
      have := Nat.pow_le_pow_right (show 0 < 2 by omega) (show 8 ≤ 7 * n + 8 by omega)
      omega
  | full => exact hb _ (by simp)
  | @more n b v bs _ _ ih =>
      have hv := ih fun c hc => hb c (by simp [hc])
      have hlt := hb b (by simp)
      have hpow : 2 ^ (7 * (n + 1) + 8) = 128 * 2 ^ (7 * n + 8) := by ring
      omega

theorem groups_iff {n v : ℕ} {bs : List ℕ} :
    Groups n bs v ↔ readGroups n bs = some (bs.length, v) := by
  constructor
  · intro h
    induction h with
    | @last n b hb => cases n <;> simp [readGroups, hb]
    | full => rfl
    | @more n b v bs hb _ ih =>
        rw [readGroups, if_neg (by omega), ih, Option.map_some, List.length_cons]
  · induction n generalizing bs v with
    | zero =>
        intro h
        cases bs with
        | nil => cases h
        | cons b bs =>
            simp only [readGroups, Option.some.injEq, Prod.mk.injEq, List.length_cons] at h
            obtain ⟨hlen, rfl⟩ := h
            rw [List.length_eq_zero_iff.mp (show bs.length = 0 by omega)]
            exact .full
    | succ n ih =>
        intro h
        cases bs with
        | nil => cases h
        | cons b bs =>
            rw [readGroups] at h
            split_ifs at h with hb
            · simp only [Option.some.injEq, Prod.mk.injEq, List.length_cons] at h
              obtain ⟨hlen, rfl⟩ := h
              rw [List.length_eq_zero_iff.mp (show bs.length = 0 by omega)]
              exact .last hb
            · obtain ⟨r, hr, heq⟩ := Option.map_eq_some_iff.mp h
              simp only [Prod.mk.injEq, List.length_cons, Nat.add_right_cancel_iff] at heq
              obtain ⟨hlen, rfl⟩ := heq
              refine .more (by omega) (ih ?_)
              rw [hr, ← hlen]

/-- Bytes that all announce another are groups once a last one follows. -/
theorem exists_groups_append {n : ℕ} {bs : List ℕ} (hlen : bs.length ≤ n)
    (hall : ∀ b ∈ bs, 128 ≤ b) : ∃ v, Groups n (bs ++ [0]) v := by
  induction bs generalizing n with
  | nil => exact ⟨0, .last (by omega)⟩
  | cons b bs ih =>
      obtain ⟨hb, hrest⟩ := List.forall_mem_cons.mp hall
      rw [List.length_cons] at hlen
      cases n with
      | zero => omega
      | succ n =>
          obtain ⟨v, hv⟩ := ih (show bs.length ≤ n by omega) hrest
          exact ⟨_, .more hb hv⟩

theorem Groups.announced {n v : ℕ} {bs cs : List ℕ} (G : Groups n (bs ++ cs) v) (hcs : cs ≠ []) :
    bs.length ≤ n ∧ ∀ b ∈ bs, 128 ≤ b := by
  induction bs generalizing n v with
  | nil => exact ⟨Nat.zero_le n, fun b hb => absurd hb List.not_mem_nil⟩
  | cons b bs ih =>
      generalize hall : b :: bs ++ cs = all at G
      have hmore : bs ++ cs ≠ [] := fun h => hcs (List.append_eq_nil_iff.mp h).2
      cases G with
      | last _ => exact absurd (List.cons.inj hall).2 hmore
      | full => exact absurd (List.cons.inj hall).2 hmore
      | more hb G =>
          obtain ⟨rfl, rfl⟩ := List.cons.inj hall
          obtain ⟨hlen, hrest⟩ := ih G
          exact ⟨Nat.succ_le_succ hlen, List.forall_mem_cons.mpr ⟨hb, hrest⟩⟩

section Shortest
variable {n v : ℕ} {bs : List ℕ}

theorem Groups.ne_nil (G : Groups n bs v) : bs ≠ [] := by
  cases G <;> exact List.cons_ne_nil _ _

theorem Groups.eq_of_singleton {b : ℕ} (G : Groups n [b] v) : v = b := by
  cases G with
  | last _ => rfl
  | full => rfl
  | more _ G => exact absurd rfl G.ne_nil

theorem Groups.getLast_zero (G : Groups n bs v) (hv : v = 0) : bs.getLast? = some 0 := by
  induction G with
  | last _ =>
      rw [hv]
      rfl
  | full =>
      rw [hv]
      rfl
  | more _ G ih =>
      rw [List.getLast?_cons_of_ne_nil G.ne_nil]
      exact ih (by omega)

theorem writeGroups_more {b : ℕ} (hb : 128 ≤ b) (hlt : b < 256) (v : ℕ) :
    writeGroups (n + 1) (b - 128 + 128 * v) =
      if v = 0 then [b - 128] else b :: writeGroups n v := by
  have hsmall : b - 128 + 128 * v < 128 ↔ v = 0 := by omega
  have hmod : (b - 128 + 128 * v) % 128 + 128 = b := by omega
  have hdiv : (b - 128 + 128 * v) / 128 = v := by omega
  rw [writeGroups, hmod, hdiv]
  simp only [hsmall]
  split_ifs with hv
  · rw [hv, Nat.mul_zero, Nat.add_zero]
  · rfl

theorem Groups.writeGroups_length_le (G : Groups n bs v) (hbytes : ∀ b ∈ bs, b < 256) :
    (writeGroups n v).length ≤ bs.length := by
  induction G with
  | @last n b hb =>
      cases n with
      | zero => exact le_rfl
      | succ n => rw [writeGroups, if_pos hb]
  | full => exact le_rfl
  | @more n b v bs hb G ih =>
      have hrest := ih fun c hc => hbytes c (List.mem_cons_of_mem _ hc)
      rw [writeGroups_more hb (hbytes b (by simp))]
      split_ifs
      · rw [List.length_singleton, List.length_cons]
        exact Nat.le_add_left 1 _
      · rw [List.length_cons, List.length_cons]
        omega

/-- A notation is the one that is written unless it ends in a superfluous zero. -/
theorem Groups.writeGroups_eq_iff (G : Groups n bs v) (hbytes : ∀ b ∈ bs, b < 256) :
    writeGroups n v = bs ↔ bs.length = 1 ∨ bs.getLast? ≠ some 0 := by
  induction G with
  | @last n b hb =>
      cases n with
      | zero => simp [writeGroups]
      | succ n => simp [writeGroups, hb]
  | full => simp [writeGroups]
  | @more n b v bs hb G ih =>
      have hpos := List.length_pos_iff.mpr G.ne_nil
      have hrest := ih fun c hc => hbytes c (List.mem_cons_of_mem _ hc)
      have hone : ¬ (b :: bs).length = 1 := by
        rw [List.length_cons]
        omega
      rw [writeGroups_more hb (hbytes b (by simp)), List.getLast?_cons_of_ne_nil G.ne_nil]
      split_ifs with hv
      · have hshort : [b - 128] ≠ b :: bs := fun h => G.ne_nil (List.cons.inj h).2.symm
        simp [hshort, G.getLast_zero hv, G.ne_nil]
      · have hlast : bs.length = 1 → bs.getLast? ≠ some 0 := by
          intro hlen
          obtain ⟨c, rfl⟩ := List.length_eq_one_iff.mp hlen
          obtain rfl := G.eq_of_singleton
          rw [List.getLast?_singleton, ne_eq, Option.some.injEq]
          exact hv
        rw [List.cons_inj_right, hrest]
        constructor
        · rintro (hlen | hne)
          · exact Or.inr (hlast hlen)
          · exact Or.inr hne
        · rintro (hlen | hne)
          · exact absurd hlen hone
          · exact Or.inr hne

end Shortest

end HdrHistogramC.SevenBitGroups
