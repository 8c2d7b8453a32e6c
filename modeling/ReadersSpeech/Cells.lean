import Mathlib.Data.List.FinRange
import Mathlib.Data.Fintype.Basic
import Mathlib.Tactic.Ring

/-! Blocks of memory whose reads are checked for bounds and for a value written before, the
counting loops over them, and rules for what such a computation yields.
-/

set_option autoImplicit false

namespace ReadersSpeech.Cells

/-- A block of memory; `none` is a cell that was never written. -/
abbrev Block (α : Type) := List (Option α)

variable {α β σ : Type}

def rd (a : Block α) (i : ℕ) : Option α := (a[i]?).join

def wr (a : Block α) (i : ℕ) (v : α) : Option (Block α) :=
  if i < a.length then some (a.set i (some v)) else none

def fresh (n : ℕ) : Block α := List.replicate n none

def block (xs : List α) : Block α := xs.map some

/-- `for (i = 0; i < n; i++)`. -/
def loop : ℕ → (ℕ → σ → Option σ) → σ → Option σ
  | 0, _, s => some s
  | n + 1, body, s => loop n body s >>= body n

def each {R : ℕ} (f : Fin R → Option β) : Option (Fin R → β) :=
  if h : ∀ r, (f r).isSome then some fun r => (f r).get (h r) else none

section Yields

/-- The computation does not fail, and its value meets `Q`. -/
def Yields (p : Option β) (Q : β → Prop) : Prop := ∃ b, p = some b ∧ Q b

theorem Yields.pure {Q : β → Prop} {b : β} (h : Q b) : Yields (some b) Q := ⟨b, rfl, h⟩

theorem Yields.of_eq {p : Option β} {b : β} (h : p = some b) : Yields p (· = b) := ⟨b, h, rfl⟩

theorem Yields.bind {p : Option β} {f : β → Option σ} {Q : β → Prop} {P : σ → Prop}
    (hp : Yields p Q) (hf : ∀ b, Q b → Yields (f b) P) : Yields (p >>= f) P := by
  obtain ⟨b, rfl, hb⟩ := hp
  exact hf b hb

theorem Yields.mono {p : Option β} {Q P : β → Prop} (hp : Yields p Q) (h : ∀ b, Q b → P b) :
    Yields p P := by
  obtain ⟨b, hb, hQ⟩ := hp
  exact ⟨b, hb, h b hQ⟩

/-- A loop keeps what holds before it and each turn hands on. -/
theorem yields_loop {n : ℕ} {body : ℕ → σ → Option σ} {s : σ} (P : ℕ → σ → Prop) (h₀ : P 0 s)
    (hstep : ∀ i < n, ∀ t, P i t → Yields (body i t) (P (i + 1))) :
    Yields (loop n body s) (P n) := by
  induction n with
  | zero => exact Yields.pure h₀
  | succ n ih =>
    have hn := ih fun i hi => hstep i (by omega)
    exact hn.bind fun t ht => hstep n (by omega) t ht

theorem yields_each {R : ℕ} {f : Fin R → Option β} {Q : Fin R → β → Prop}
    (h : ∀ r, Yields (f r) (Q r)) : Yields (each f) fun b => ∀ r, Q r (b r) := by
  choose b hb hQ using h
  refine ⟨b, ?_, hQ⟩
  have hsome : ∀ r, (f r).isSome := fun r => by rw [hb r]; rfl
  rw [each, dif_pos hsome]
  congr 1
  funext r
  simp [hb r]

end Yields

section Cells

theorem rd_set (a : Block α) (i j : ℕ) (v : α) (hi : i < a.length) :
    rd (a.set i (some v)) j = if i = j then some v else rd a j := by
  unfold rd
  by_cases h : i = j
  · subst h
    simp [hi]
  · simp [h]

theorem rd_block {xs : List α} {i : ℕ} {v : α} (h : xs[i]? = some v) :
    rd (block xs) i = some v := by
  simp [rd, block, h]

/-- The cell `i` of `a` was given the value `v`. -/
structure Put (a b : Block α) (i : ℕ) (v : α) : Prop where
  length : b.length = a.length
  here : rd b i = some v
  kept : ∀ j, j ≠ i → rd b j = rd a j

theorem yields_wr {a : Block α} {i : ℕ} (v : α) (h : i < a.length) :
    Yields (wr a i v) fun b => Put a b i v := by
  refine ⟨a.set i (some v), if_pos h, ⟨List.length_set, ?_, fun j hj => ?_⟩⟩
  · rw [rd_set a i i v h, if_pos rfl]
  · rw [rd_set a i j v h, if_neg (Ne.symm hj)]

/-- `a[i] = x`, where the value `x` is read or computed. -/
theorem yields_put {a : Block α} {i : ℕ} {x : Option α} {v : α} (hx : x = some v)
    (h : i < a.length) : Yields (do wr a i (← x)) fun b => Put a b i v := by
  subst hx
  exact yields_wr v h

/-- The `n` cells from `off` on hold the values `v`. -/
def Holds (a : Block α) (off n : ℕ) (v : ℕ → α) : Prop := ∀ i < n, rd a (off + i) = some (v i)

theorem Holds.get {a : Block α} {n : ℕ} {v : ℕ → α} (h : Holds a 0 n v) {i : ℕ} (hi : i < n) :
    rd a i = some (v i) := by
  have hv := h i hi
  rwa [Nat.zero_add] at hv

theorem Holds.take {a : Block α} {off n k : ℕ} {v : ℕ → α} (h : Holds a off n v) (hk : k ≤ n) :
    Holds a off k v := fun i hi => h i (by omega)

theorem Holds.congr {a : Block α} {off n : ℕ} {v w : ℕ → α} (h : Holds a off n v)
    (hw : ∀ i < n, v i = w i) : Holds a off n w := fun i hi => by rw [h i hi, hw i hi]

end Cells

section Writes
variable {R : ℕ}

/-- Of the cells of `a`, the `n` from each `os r` on were given the values `v r`. -/
structure Writes (a b : Block α) (os : Fin R → ℕ) (n : ℕ) (v : Fin R → ℕ → α) : Prop where
  length : b.length = a.length
  holds : ∀ r, Holds b (os r) n (v r)
  kept : ∀ i, (∀ r, i < os r ∨ os r + n ≤ i) → rd b i = rd a i

def Apart (os : Fin R → ℕ) (n : ℕ) : Prop :=
  ∀ r s, ∀ i < n, ∀ j < n, os r + i = os s + j → r = s

theorem Apart.mono {os : Fin R → ℕ} {n m : ℕ} (h : Apart os n) (hm : m ≤ n) : Apart os m :=
  fun r s i hi j hj => h r s i (by omega) j (by omega)

theorem Apart.shift {os : Fin R → ℕ} {n k m : ℕ} (h : Apart os n) (hm : k + m ≤ n) :
    Apart (fun r => os r + k) m := fun r s i hi j hj hij => by
  rw [Nat.add_assoc, Nat.add_assoc] at hij
  exact h r s (k + i) (by omega) (k + j) (by omega) hij

theorem Apart.outside {os : Fin R → ℕ} {n : ℕ} (h : Apart os n) (r s : Fin R) {i k : ℕ}
    (hk : k ≤ i) (hi : i < n) : os r + i < os s ∨ os s + k ≤ os r + i := by
  by_contra hn
  push Not at hn
  have hrs : r = s := h r s i hi (os r + i - os s) (by omega) (by omega)
  subst hrs
  omega

theorem apart_one (off n : ℕ) : Apart (fun _ : Fin 1 => off) n :=
  fun r s _ _ _ _ _ => Subsingleton.elim r s

theorem Writes.zero (a : Block α) (os : Fin R → ℕ) (v : Fin R → ℕ → α) :
    Writes a a os 0 v := ⟨rfl, fun _ _ hi => absurd hi (Nat.not_lt_zero _), fun _ _ => rfl⟩

theorem Writes.append {a b c : Block α} {os : Fin R → ℕ} {n m : ℕ} {v : Fin R → ℕ → α}
    (hab : Writes a b os n v) (hbc : Writes b c (fun r => os r + n) m fun r i => v r (n + i))
    (hos : Apart os (n + m)) : Writes a c os (n + m) v where
  length := hbc.length.trans hab.length
  holds := fun r i hi => by
    by_cases hin : i < n
    · rw [hbc.kept _ fun s => ?_]
      · exact hab.holds r i hin
      · by_contra hs
        push Not at hs
        have hrs := hos r s i hi (os r + i - os s) (by omega) (by omega)
        subst hrs
        omega
    · have hc := hbc.holds r (i - n) (by omega)
      simp only [Nat.add_assoc, Nat.add_sub_cancel' (not_lt.mp hin)] at hc
      exact hc
  kept := fun i hi => by
    rw [hbc.kept i fun r => by have := hi r; omega]
    exact hab.kept i fun r => by have := hi r; omega

theorem yields_puts {ix : Fin R → ℕ} {w : Fin R → α} {body : Block α → Fin R → Option (Block α)}
    (rs : List (Fin R)) (a : Block α) (hix : ∀ r ∈ rs, ∀ s ∈ rs, ix r = ix s → r = s)
    (hrs : rs.Nodup)
    (hbody : ∀ r b, b.length = a.length → Yields (body b r) fun c => Put b c (ix r) (w r)) :
    Yields (rs.foldlM body a) fun b => b.length = a.length ∧ (∀ r ∈ rs, rd b (ix r) = some (w r)) ∧
      ∀ i, (∀ r ∈ rs, i ≠ ix r) → rd b i = rd a i := by
  induction rs generalizing a with
  | nil => exact Yields.pure ⟨rfl, by simp, fun _ _ => rfl⟩
  | cons r rs ih =>
    obtain ⟨hr, hnd⟩ := List.nodup_cons.mp hrs
    rw [List.foldlM_cons]
    refine (hbody r a rfl).bind fun b hb => ?_
    have hrest := ih b (fun s hs t ht => hix s (by simp [hs]) t (by simp [ht])) hnd
      fun s c hc => hbody s c (hc.trans hb.length)
    refine hrest.mono fun c ⟨hlen, hin, hout⟩ => ⟨hlen.trans hb.length, ?_, ?_⟩
    · intro s hs
      rcases List.mem_cons.mp hs with rfl | hs
      · rw [hout _ fun t ht heq => hr (by rw [hix s (by simp) t (by simp [ht]) heq]; exact ht)]
        exact hb.here
      · exact hin s hs
    · intro i hi
      rw [hout i fun s hs => hi s (by simp [hs]), hb.kept i (hi r (by simp))]

/-- A loop over the columns that gives every row its next value. -/
theorem yields_columns {a : Block α} {os : Fin R → ℕ} {n : ℕ} {v : Fin R → ℕ → α}
    {body : ℕ → Block α → Fin R → Option (Block α)} (hos : Apart os n)
    (hbody : ∀ j < n, ∀ r b, b.length = a.length →
      Yields (body j b r) fun c => Put b c (os r + j) (v r j)) :
    Yields (loop n (fun j b => (List.finRange R).foldlM (body j) b) a)
      fun b => Writes a b os n v := by
  apply yields_loop fun j b => Writes a b os j v
  · exact Writes.zero a os v
  · intro j hj b hb
    refine (yields_puts (List.finRange R) b (fun r _ s _ => hos r s j hj j hj)
      (List.nodup_finRange R) fun r c hc => hbody j hj r c (hc.trans hb.length)).mono
      fun c ⟨hlen, hin, hout⟩ => ?_
    apply hb.append (m := 1)
    · exact
        { length := hlen
          holds := fun r i hi => by
            obtain rfl : i = 0 := by omega
            exact hin r (List.mem_finRange r)
          kept := fun i hi => hout i fun r _ => by have := hi r; omega }
    · exact fun r s i hi k hk => hos r s i (by omega) k (by omega)

end Writes

section Fills

/-- `n` cells of `a` from `off` on were given the values `v`. -/
abbrev Fills (a b : Block α) (off n : ℕ) (v : ℕ → α) : Prop :=
  Writes a b (fun _ : Fin 1 => off) n fun _ => v

variable {a b c : Block α} {off n : ℕ} {v : ℕ → α}

theorem Fills.holds (h : Fills a b off n v) : Holds b off n v := Writes.holds h 0

theorem Fills.kept (h : Fills a b off n v) {i : ℕ} (hi : i < off ∨ off + n ≤ i) :
    rd b i = rd a i := Writes.kept h i fun _ => hi

theorem Fills.congr {w : ℕ → α} (h : Fills a b off n v) (hw : ∀ i < n, v i = w i) :
    Fills a b off n w := ⟨h.length, fun _ => h.holds.congr hw, Writes.kept h⟩

theorem Put.fills {i : ℕ} {x : α} (h : Put a b i x) {w : ℕ → α} (hw : w 0 = x) :
    Fills a b i 1 w where
  length := h.length
  holds := fun _ j hj => by
    obtain rfl : j = 0 := by omega
    rw [hw]
    exact h.here
  kept := fun j hj => h.kept j (by have := hj 0; omega)

theorem Fills.append {m : ℕ} (hab : Fills a b off n v)
    (hbc : Fills b c (off + n) m fun i => v (n + i)) : Fills a c off (n + m) v :=
  Writes.append hab hbc (apart_one off (n + m))

theorem Fills.over {w : ℕ → α} (hab : Fills a b off n v) (hbc : Fills b c off n w) :
    Fills a c off n w where
  length := hbc.length.trans hab.length
  holds := fun _ => hbc.holds
  kept := fun _ hi => (hbc.kept (hi 0)).trans (hab.kept (hi 0))

/-- A loop that fills `n` cells one after the other, each from what the block still holds. -/
theorem yields_fill {body : ℕ → Block α → Option (Block α)} (off : ℕ) (v : ℕ → α)
    (hbody : ∀ j < n, ∀ b, Fills a b off j v →
      Yields (body j b) fun c => Put b c (off + j) (v j)) :
    Yields (loop n body a) fun b => Fills a b off n v := by
  apply yields_loop fun j b => Fills a b off j v
  · exact Writes.zero a _ _
  · intro j hj b hb
    exact (hbody j hj b hb).mono fun c hc => hb.append (hc.fills rfl)

/-- A loop that replaces each of `n` cells by a function of it. -/
theorem yields_map (f : α → α) (ha : Holds a off n v) (hlen : off + n ≤ a.length) :
    Yields (loop n (fun i a => do wr a (off + i) (f (← rd a (off + i)))) a) fun b =>
      Fills a b off n fun i => f (v i) :=
  yields_fill off _ fun i hi b hb => by
    have hlen' := hb.length
    rw [hb.kept (by omega), ha i hi]
    exact yields_wr _ (by omega)

/-- The same loop over a block for each row, from its first cell on. -/
theorem yields_fill_each {R : ℕ} (body : ℕ → Fin R → Block α → Option (Block α))
    {a : Fin R → Block α} {v : Fin R → ℕ → α}
    (hbody : ∀ j < n, ∀ r b, Fills (a r) b 0 j (v r) →
      Yields (body j r b) fun c => Put b c j (v r j)) :
    Yields (loop n (fun j b => each fun r => body j r (b r)) a)
      fun b => ∀ r, Fills (a r) (b r) 0 n (v r) := by
  apply yields_loop fun j (b : Fin R → Block α) => ∀ r, Fills (a r) (b r) 0 j (v r)
  · exact fun r => Writes.zero (a r) _ _
  · intro j hj b hb
    refine yields_each (Q := fun r c => Fills (a r) c 0 (j + 1) (v r)) fun r => ?_
    refine (hbody j hj r (b r) (hb r)).mono fun c hc => (hb r).append ?_
    rw [Nat.zero_add]
    exact hc.fills rfl

end Fills

section Rows

theorem row_fits {t F : ℕ} (n : ℕ) (h : t < F) : t * n + n ≤ F * n := by
  rw [← Nat.succ_mul]
  exact Nat.mul_le_mul_right n h

theorem row_outside {s t n i : ℕ} (hne : s ≠ t) (hi : i < n) :
    s * n + i < t * n ∨ t * n + n ≤ s * n + i := by
  rcases Nat.lt_or_gt_of_ne hne with h | h
  · have hfits := row_fits n h
    omega
  · have hfits := row_fits n h
    omega

theorem apart_rows {R : ℕ} (m n : ℕ) : Apart (fun r : Fin R => (m + r.val) * n) n := by
  intro r s i hi j hj hij
  have heq : (m + r.val) * n + i = (m + s.val) * n + j := hij
  by_contra hne
  have hrs : m + r.val ≠ m + s.val := fun h => hne (Fin.ext (by omega))
  have hout := row_outside hrs hi
  omega

variable {a : Block α} {C w : ℕ} {v : ℕ → ℕ → α}

/-- A loop that fills `C` rows of `w` cells, one after the other. -/
theorem yields_fill_rows {body : ℕ → Block α → Option (Block α)}
    (hbody : ∀ c < C, ∀ b, b.length = a.length →
      Yields (body c b) fun b' => Fills b b' (c * w) w (v c)) :
    Yields (loop C body a) fun b => b.length = a.length ∧ ∀ c < C, Holds b (c * w) w (v c) := by
  refine yields_loop (fun c (b : Block α) => b.length = a.length ∧
    ∀ s < c, Holds b (s * w) w (v s)) ⟨rfl, by omega⟩ fun c hc b hb => ?_
  refine (hbody c hc b hb.1).mono fun b' hb' => ⟨hb'.length.trans hb.1, fun s hs => ?_⟩
  by_cases hsc : s = c
  · subst hsc
    exact hb'.holds
  · intro j hj
    rw [hb'.kept (row_outside hsc hj)]
    exact hb.2 s (by omega) j hj

/-- A loop that replaces each of `C` rows of `w` cells by a function of it. -/
theorem yields_map_rows {body : ℕ → Block α → Option (Block α)} {u v : ℕ → ℕ → α}
    (ha : ∀ c < C, Holds a (c * w) w (u c))
    (hbody : ∀ c < C, ∀ b, b.length = a.length → Holds b (c * w) w (u c) →
      Yields (body c b) fun b' => Fills b b' (c * w) w (v c)) :
    Yields (loop C body a) fun b => b.length = a.length ∧ ∀ c < C, Holds b (c * w) w (v c) := by
  refine (yields_loop (fun c (b : Block α) => b.length = a.length ∧
    (∀ s < c, Holds b (s * w) w (v s)) ∧ ∀ s < C, c ≤ s → Holds b (s * w) w (u s))
    ⟨rfl, by omega, fun s hs _ => ha s hs⟩ fun c hc b hb => ?_).mono fun b hb => ⟨hb.1, hb.2.1⟩
  obtain ⟨hlen, hdone, hleft⟩ := hb
  refine (hbody c hc b hlen (hleft c hc le_rfl)).mono fun b' hb' =>
    ⟨hb'.length.trans hlen, fun s hs => ?_, fun s hs hcs => ?_⟩
  · by_cases hsc : s = c
    · subst hsc
      exact hb'.holds
    · intro j hj
      rw [hb'.kept (row_outside hsc hj)]
      exact hdone s (by omega) j hj
  · intro j hj
    rw [hb'.kept (row_outside (by omega) hj)]
    exact hleft s hs (by omega) j hj

/-- Rows that follow each other are one run of cells. -/
theorem holds_flat (h : ∀ c < C, Holds a (c * w) w (v c)) :
    Holds a 0 (C * w) fun i => v (i / w) (i % w) := by
  intro i hi
  have hw : 0 < w := Nat.pos_of_mul_pos_left (Nat.zero_lt_of_lt hi)
  have hrow := h (i / w) (Nat.div_lt_of_lt_mul (by rwa [Nat.mul_comm])) (i % w) (Nat.mod_lt i hw)
  rw [Nat.div_add_mod'] at hrow
  rw [Nat.zero_add]
  exact hrow

theorem Holds.row (h : Holds a 0 (C * w) fun i => v (i / w) (i % w)) {c : ℕ} (hc : c < C) :
    Holds a (c * w) w (v c) := by
  intro j hj
  have hfits := row_fits w hc
  have hcell := h.get (show c * w + j < C * w by omega)
  rwa [Nat.mul_comm c w, Nat.mul_add_div (by omega), Nat.mul_add_mod, Nat.div_eq_of_lt hj,
    Nat.mod_eq_of_lt hj, Nat.add_zero, Nat.mul_comm w c] at hcell

end Rows

section Written
variable {a b c : Block α} {off n : ℕ}

/-- The `n` cells from `off` on have been written. -/
def Written (a : Block α) (off n : ℕ) : Prop := ∀ i < n, ∃ v, rd a (off + i) = some v

/-- Nothing that was written is lost. -/
structure Grows (a b : Block α) : Prop where
  length : b.length = a.length
  kept : ∀ i v, rd a i = some v → ∃ w, rd b i = some w

theorem Grows.refl (a : Block α) : Grows a a := ⟨rfl, fun _ v h => ⟨v, h⟩⟩

theorem Grows.trans (hab : Grows a b) (hbc : Grows b c) : Grows a c where
  length := hbc.length.trans hab.length
  kept := fun i v h => by
    obtain ⟨w, hw⟩ := hab.kept i v h
    exact hbc.kept i w hw

theorem Put.grows {i : ℕ} {v : α} (h : Put a b i v) : Grows a b where
  length := h.length
  kept := fun j w hw => by
    by_cases hj : j = i
    · exact ⟨v, hj ▸ h.here⟩
    · exact ⟨w, (h.kept j hj).trans hw⟩

theorem Put.written {i : ℕ} {v : α} (h : Put a b i v) : Written b i 1 := fun j hj => by
  obtain rfl : j = 0 := by omega
  exact ⟨v, h.here⟩

theorem Fills.grows {v : ℕ → α} (h : Fills a b off n v) : Grows a b where
  length := h.length
  kept := fun i w hw => by
    by_cases hi : i < off ∨ off + n ≤ i
    · exact ⟨w, (h.kept hi).trans hw⟩
    · have hcell := h.holds (i - off) (by omega)
      rw [Nat.add_sub_cancel' (by omega)] at hcell
      exact ⟨v (i - off), hcell⟩

theorem Written.grows (h : Written a off n) (hab : Grows a b) : Written b off n := fun i hi => by
  obtain ⟨v, hv⟩ := h i hi
  exact hab.kept _ v hv

theorem Holds.written {v : ℕ → α} (h : Holds a off n v) : Written a off n := fun i hi =>
  ⟨v i, h i hi⟩

theorem Written.holds (h : Written a off n) (d : α) : ∃ v, Holds a off n v := by
  have hall : ∀ i, ∃ v, i < n → rd a (off + i) = some v := fun i => by
    by_cases hi : i < n
    · obtain ⟨v, hv⟩ := h i hi
      exact ⟨v, fun _ => hv⟩
    · exact ⟨d, fun h => absurd h hi⟩
  choose v hv using hall
  exact ⟨v, hv⟩

theorem Written.part {k m : ℕ} (h : Written a off n) (hk : k + m ≤ n) :
    Written a (off + k) m := fun i hi => by
  obtain ⟨v, hv⟩ := h (k + i) (by omega)
  exact ⟨v, by rw [Nat.add_assoc]; exact hv⟩

theorem Written.cell (h : Written a 0 n) {i : ℕ} (hi : i < n) : ∃ v, rd a i = some v := by
  obtain ⟨v, hv⟩ := h i hi
  exact ⟨v, by rwa [Nat.zero_add] at hv⟩

/-- A loop that only reads. -/
theorem yields_reads {body : ℕ → σ → Option σ} {s : σ}
    (hbody : ∀ i < n, ∀ t, Yields (body i t) fun _ => True) :
    Yields (loop n body s) fun _ => True :=
  yields_loop (fun _ _ => True) trivial fun i hi t _ => hbody i hi t

theorem yields_grows {body : ℕ → Block α → Option (Block α)}
    (hbody : ∀ j < n, ∀ b, Grows a b → Yields (body j b) (Grows b)) :
    Yields (loop n body a) (Grows a) :=
  yields_loop (fun _ b => Grows a b) (Grows.refl a) fun j hj b hb =>
    (hbody j hj b hb).mono fun _ hc => hb.trans hc

/-- A loop that writes `n` rows of `w` cells, whatever else it writes. -/
theorem yields_written {body : ℕ → Block α → Option (Block α)} (off w : ℕ)
    (hbody : ∀ j < n, ∀ b, Grows a b →
      Yields (body j b) fun c => Grows b c ∧ Written c (off + j * w) w) :
    Yields (loop n body a) fun b => Grows a b ∧ Written b off (n * w) := by
  refine (yields_loop (fun j b => Grows a b ∧ ∀ k < j, Written b (off + k * w) w)
    ⟨Grows.refl a, by omega⟩ fun j hj b hb => ?_).mono fun b hb => ⟨hb.1, fun i hi => ?_⟩
  · refine (hbody j hj b hb.1).mono fun c hc => ⟨hb.1.trans hc.1, fun k hk => ?_⟩
    by_cases hkj : k = j
    · subst hkj
      exact hc.2
    · exact (hb.2 k (by omega)).grows hc.1
  · have hw : 0 < w := Nat.pos_of_mul_pos_left (Nat.zero_lt_of_lt hi)
    obtain ⟨v, hv⟩ := hb.2 (i / w) (Nat.div_lt_of_lt_mul (by rwa [Nat.mul_comm])) (i % w)
      (Nat.mod_lt i hw)
    exact ⟨v, by rwa [Nat.add_assoc, Nat.div_add_mod'] at hv⟩

theorem yields_written_cells {body : ℕ → Block α → Option (Block α)} (off : ℕ)
    (hbody : ∀ j < n, ∀ b, Grows a b → Yields (body j b) fun c => ∃ v, Put b c (off + j) v) :
    Yields (loop n body a) fun b => Grows a b ∧ Written b off n := by
  have hrows := yields_written (a := a) (n := n) off 1 fun j hj b hb =>
    (hbody j hj b hb).mono fun c ⟨_, hc⟩ => ⟨hc.grows, by rw [Nat.mul_one]; exact hc.written⟩
  rwa [Nat.mul_one] at hrows

/-- A loop that changes `n` cells in place. -/
theorem yields_update (f : α → α) (h : Written a off n) (hlen : off + n ≤ a.length) :
    Yields (loop n (fun i a => do wr a (off + i) (f (← rd a (off + i)))) a) (Grows a) :=
  yields_grows fun i hi b hb => by
    obtain ⟨v, hv⟩ := (h.grows hb) i hi
    have hlen' := hb.length
    rw [hv]
    exact (yields_wr (f v) (by omega)).mono fun c hc => hc.grows

end Written

end ReadersSpeech.Cells
