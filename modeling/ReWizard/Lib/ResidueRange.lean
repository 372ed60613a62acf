import Mathlib.Data.Int.ModEq
import Mathlib.Data.BitVec

/-!
# Residues in a range

Numbers of which only the residue modulo `W` matters, such as the low bits of a register, against a
range of integers: `Meets W lo hi r` says that some number of the range has the residue of `r`. The
bounds may themselves have wrapped (`Int.bmod`) at a multiple `M` of `W`; how often they did is
`Int.bdiv`.

* `meets_bmod_iff`: the range between the wrapped bounds has the residue if and only if the offset
  from the lower bound is at most what the wrapping leaves of the distance of the bounds.
* `forall_bmod_mem_iff`: a range stays between its bounds when it wraps if and only if the bounds
  wrap equally often.
* `BitVec.setWidth_eq_iff`: bit vectors have the same low bits if and only if they have the same
  residue.
-/

namespace ResidueRange

/-- Some number from `lo` to `hi` has the residue of `r`. -/
def Meets (W lo hi r : Int) : Prop := ∃ z, lo ≤ z ∧ z ≤ hi ∧ z % W = r % W

variable {W lo hi r : Int}

theorem meets_of_mem (hlo : lo ≤ r) (hhi : r ≤ hi) : Meets W lo hi r := ⟨r, hlo, hhi, rfl⟩

theorem meets_congr {r' : Int} (h : r % W = r' % W) : Meets W lo hi r ↔ Meets W lo hi r' := by
  unfold Meets
  rw [h]

/-- The first number from `lo` on with the residue decides. -/
theorem meets_iff (hW : 0 < W) : Meets W lo hi r ↔ (r - lo) % W ≤ hi - lo := by
  have hne : W ≠ 0 := hW.ne'
  constructor
  · rintro ⟨z, hlo, hhi, hz⟩
    have hmod : (r - lo) % W = (z - lo) % W := Int.ModEq.sub_right lo hz.symm
    have hquot : 0 ≤ W * ((z - lo) / W) :=
      Int.mul_nonneg hW.le (Int.ediv_nonneg (by omega) hW.le)
    have hdiv := Int.mul_ediv_add_emod (z - lo) W
    omega
  · intro h
    have hpos : 0 ≤ (r - lo) % W := Int.emod_nonneg _ hne
    refine ⟨lo + (r - lo) % W, by omega, by omega, ?_⟩
    rw [Int.add_emod, Int.emod_emod_of_dvd _ dvd_rfl, ← Int.add_emod]
    congr 1
    omega

/-- Wrapping at a multiple of the modulus keeps the residue. -/
theorem bmod_emod_of_dvd {M : Nat} (h : W ∣ M) (x : Int) : x.bmod M % W = x % W := by
  obtain ⟨c, hc⟩ := h
  rw [Int.bmod_eq_self_sub_mul_bdiv, hc, Int.mul_assoc, Int.sub_mul_emod_self_left]

theorem meets_bmod_iff {M : Nat} (hW : 0 < W) (h : W ∣ M) :
    Meets W (lo.bmod M) (hi.bmod M) r ↔
      (r - lo) % W ≤ hi - lo - M * (hi.bdiv M - lo.bdiv M) := by
  have hoffset : (r - lo.bmod M) % W = (r - lo) % W :=
    Int.ModEq.sub_left r (bmod_emod_of_dvd h lo)
  have hlo := Int.bmod_eq_self_sub_mul_bdiv lo M
  have hhi := Int.bmod_eq_self_sub_mul_bdiv hi M
  rw [meets_iff hW, hoffset, Int.mul_sub]
  omega

/-- Bounds that wrap alike lose nothing. -/
theorem offset_le_of_bdiv_eq {M : Nat} (hW : 0 < W) (hlo : lo ≤ r) (hhi : r ≤ hi)
    (h : hi.bdiv M = lo.bdiv M) : (r - lo) % W ≤ hi - lo - M * (hi.bdiv M - lo.bdiv M) := by
  have hle : (r - lo) % W ≤ hi - lo := (meets_iff hW).mp (meets_of_mem hlo hhi)
  rw [h, Int.sub_self, Int.mul_zero]
  omega

/-! ## Ranges that wrap as a whole -/

/-- The quotient counts how often a number wraps. -/
theorem bdiv_eq_ediv {M : Nat} (hM : 0 < M) (x : Int) : x.bdiv M = (x + M / 2) / M := by
  have hlow := Int.le_bmod (x := x) hM
  have hhigh := Int.bmod_lt (x := x) hM
  have hsplit := Int.bdiv_add_bmod x M
  have hx : x + M / 2 = (x.bmod M + M / 2) + M * x.bdiv M := by omega
  rw [hx, Int.add_mul_ediv_left _ _ (by omega), Int.ediv_eq_zero_of_lt (by omega) (by omega),
    Int.zero_add]

theorem bdiv_mono {M : Nat} (hM : 0 < M) {x y : Int} (h : x ≤ y) : x.bdiv M ≤ y.bdiv M := by
  rw [bdiv_eq_ediv hM, bdiv_eq_ediv hM]
  exact Int.ediv_le_ediv (by omega) (by omega)

/-- The numbers that wrap `k` times, by their offset in this turn. -/
theorem bmod_of_offset {M : Nat} {k r : Int} (hlow : -(M / 2) ≤ r) (hhigh : r < (M + 1) / 2) :
    (M * k + r).bmod M = r := by
  rw [Int.add_comm, Int.add_mul_bmod_self_left]
  exact (Int.bmod_eq_iff (by omega)).mpr ⟨hlow, hhigh, by simp⟩

/-- All numbers of a range that is not too long stay between its bounds when they wrap, if and only
if the bounds wrap equally often. -/
theorem forall_bmod_mem_iff {M : Nat} (hM : 0 < M) (hle : lo ≤ hi) (hlength : hi - lo < 2 * M - 1) :
    (∀ z, lo ≤ z → z ≤ hi → lo.bmod M ≤ z.bmod M ∧ z.bmod M ≤ hi.bmod M) ↔
      hi.bdiv M = lo.bdiv M := by
  have hlo := Int.bdiv_add_bmod lo M
  have hhi := Int.bdiv_add_bmod hi M
  have hloLow := Int.le_bmod (x := lo) hM
  have hloHigh := Int.bmod_lt (x := lo) hM
  have hhiLow := Int.le_bmod (x := hi) hM
  have hhiHigh := Int.bmod_lt (x := hi) hM
  constructor
  · intro h
    by_contra hne
    have hlt : lo.bdiv M + 1 ≤ hi.bdiv M :=
      lt_of_le_of_ne (bdiv_mono hM hle) fun heq => hne heq.symm
    have hturn : M * lo.bdiv M + M ≤ M * hi.bdiv M := by
      have := Int.mul_le_mul_of_nonneg_left hlt (Int.natCast_nonneg M)
      rwa [Int.mul_add, Int.mul_one] at this
    -- the last number of the first turn is above the upper bound, unless that is the greatest
    have hlast := (h (M * lo.bdiv M + ((M + 1) / 2 - 1)) (by omega) (by omega)).2
    rw [bmod_of_offset (by omega) (by omega)] at hlast
    -- the first number of the last turn is below the lower bound, unless that is the least
    have hfirst := (h (M * hi.bdiv M + -(M / 2)) (by omega) (by omega)).1
    rw [bmod_of_offset (by omega) (by omega)] at hfirst
    omega
  · intro heq z hlz hzh
    have hz := Int.bdiv_add_bmod z M
    have hbdiv : z.bdiv M = lo.bdiv M :=
      le_antisymm (heq ▸ bdiv_mono hM hzh) (bdiv_mono hM hlz)
    rw [hbdiv] at hz
    rw [heq] at hhi
    omega

/-- The sums of the numbers of two ranges are all numbers between the sums of the bounds. -/
theorem exists_add_eq {lo' hi' z : Int} (h : lo ≤ hi) (h' : lo' ≤ hi') (hlow : lo + lo' ≤ z)
    (hhigh : z ≤ hi + hi') :
    ∃ x y, (lo ≤ x ∧ x ≤ hi) ∧ (lo' ≤ y ∧ y ≤ hi') ∧ x + y = z := by
  rcases le_total (z - lo') hi with hx | hx
  · exact ⟨z - lo', lo', by omega, by omega, by omega⟩
  · exact ⟨hi, z - hi, by omega, by omega, by omega⟩

/-- The sums of two ranges that are not too long stay between the sums of the bounds when all of
them wrap, if and only if the sums of the bounds wrap equally often. -/
theorem forall_add_bmod_mem_iff {M : Nat} (hM : 0 < M) {lo' hi' : Int} (h : lo ≤ hi)
    (h' : lo' ≤ hi') (hlength : hi + hi' - (lo + lo') < 2 * M - 1) :
    (∀ x, lo ≤ x → x ≤ hi → ∀ y, lo' ≤ y → y ≤ hi' →
      (lo + lo').bmod M ≤ (x + y).bmod M ∧ (x + y).bmod M ≤ (hi + hi').bmod M) ↔
      (hi + hi').bdiv M = (lo + lo').bdiv M := by
  rw [← forall_bmod_mem_iff hM (Int.add_le_add h h') hlength]
  constructor
  · intro hall z hlz hzh
    obtain ⟨x, y, hx, hy, rfl⟩ := exists_add_eq h h' hlz hzh
    exact hall x hx.1 hx.2 y hy.1 hy.2
  · intro hall x hlx hxh y hly hyh
    exact hall _ (Int.add_le_add hlx hly) (Int.add_le_add hxh hyh)

end ResidueRange

/-- The low bits of a bit vector are its residue. -/
theorem BitVec.toInt_emod {n w : Nat} (h : w ≤ n) (x : BitVec n) :
    x.toInt % (2 ^ w : Nat) = ((x.setWidth w).toNat : Int) := by
  rw [BitVec.toInt_eq_toNat_bmod, ResidueRange.bmod_emod_of_dvd
    (Int.natCast_dvd_natCast.mpr (Nat.pow_dvd_pow 2 h)), BitVec.toNat_setWidth, Int.natCast_emod]

theorem BitVec.setWidth_eq_iff {n w : Nat} (h : w ≤ n) (x y : BitVec n) :
    x.setWidth w = y.setWidth w ↔ x.toInt % (2 ^ w : Nat) = y.toInt % (2 ^ w : Nat) := by
  rw [BitVec.toInt_emod h, BitVec.toInt_emod h, Int.natCast_inj, BitVec.toNat_inj]
