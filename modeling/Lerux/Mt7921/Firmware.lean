import Lerux.Base.Check
import Lerux.Base.Checked
import Mathlib.Data.BitVec

/-!
# The region tables of the radio firmware

`patch_regions` reads a table that follows the header of the patch, and `ram_regions` one that ends
at the trailer of the RAM image. A subtraction below zero, an overflow and an index out of range are
a crash.

The patch table is read safely whatever the image is. The table of the RAM image is located by a
subtraction that is not checked, and its regions are compared with the trailer, not with the table
(`regions_exact`).
-/

namespace Lerux.Mt7921

open Base Check

/-- A byte slice. -/
structure Image where
  bytes : List UInt8
  fits : bytes.length < 2 ^ 64

structure Region where
  addr : Nat
  off : Nat
  len : Nat
  mode : BitVec 32
  skip : Bool
  override_addr : Bool
deriving DecidableEq, Repr

def DL_NEED_RSP : BitVec 32 := 1 <<< 31

def PATCH_HDR : Nat := 96
def PATCH_SEC : Nat := 64
def RAM_TRAILER : Nat := 36
def RAM_REGION : Nat := 40
def MAX_REGIONS : Nat := 8

/-- A difference that is not checked. -/
def sub64 (a b : Nat) : Check Nat := if b ≤ a then pure (a - b) else crash

def patchMode (info : BitVec 32) : Option (BitVec 32) :=
  if info = 0xffffffff then some DL_NEED_RSP
  else
    let enc := info >>> 24
    if enc = 0 then some DL_NEED_RSP
    else if enc = 1 then some (DL_NEED_RSP ||| (1 ||| 1 <<< 3) ||| (info &&& 3) <<< 1)
    else if enc = 2 then some (DL_NEED_RSP ||| (1 ||| 1 <<< 6 ||| 1 <<< 3))
    else none

/-- The sections of the patch from `i` on. -/
def patchFrom (image : Image) : Nat → Nat → List Region → Check (Bool × List Region)
  | 0, _, out => pure (true, out)
  | left + 1, i, out => do
    let start ← add64 PATCH_HDR (← mul64 i PATCH_SEC)
    let stop ← add64 start PATCH_SEC
    if stop > image.bytes.length then return (false, out)
    let sec := (image.bytes.take stop).drop start
    let kind ← beAt sec 0 4
    if kind % 0x10000 ≠ 2 then return (false, out)
    let addr ← beAt sec 12 16
    let len ← beAt sec 16 20
    let dataOff ← beAt sec 4 8
    let info ← beAt sec 20 24
    match patchMode (BitVec.ofNat 32 info), checkedAdd 64 dataOff len with
    | some mode, some dataEnd =>
      if dataEnd > image.bytes.length then return (false, out)
      patchFrom image left (i + 1) (out.set i { addr, off := dataOff, len, mode, skip := false, override_addr := false })
    | _, _ => return (false, out)

def patchRegions (image : Image) (out : List Region) : Check (Option Nat × List Region) := do
  if image.bytes.length < PATCH_HDR ∨ out = [] then return (none, out)
  let n ← beAt image.bytes 44 48
  if n = 0 ∨ n > min out.length MAX_REGIONS then return (none, out)
  let (done, out) ← patchFrom image n 0 out
  return (if done then some n else none, out)

def ramMode (feature : UInt8) : BitVec 32 :=
  let mode := DL_NEED_RSP
  let mode := if feature &&& 1 ≠ 0 then mode ||| (1 ||| 1 <<< 3) else mode
  let mode := if feature &&& 0x10 ≠ 0 then mode ||| 1 <<< 6 else mode
  mode ||| BitVec.ofNat 32 (feature &&& 0x06).toNat

/-- What the loop over the RAM regions carries. -/
structure RamTotals where
  data : Nat := 0
  override_addr : Nat := 0
  option : BitVec 32 := 0

/-- The RAM regions from `i` on. -/
def ramFrom (image : Image) (trailer n : Nat) : Nat → Nat → RamTotals → List Region →
    Check (Option RamTotals × List Region)
  | 0, _, totals, out => pure (some totals, out)
  | left + 1, i, totals, out => do
    let start ← sub64 trailer (← mul64 (← sub64 n i) RAM_REGION)
    let stop ← add64 start RAM_REGION
    if stop > image.bytes.length then return (none, out)
    let region := (image.bytes.take stop).drop start
    let len ← leAt region 20 24
    let addr ← leAt region 16 20
    let feature ← byteAt region 24
    let skip := decide (feature &&& 0x40 ≠ 0)
    let overrides := decide (feature &&& 0x20 ≠ 0)
    let totals := if overrides then { totals with override_addr := addr, option := totals.option ||| 1 } else totals
    match checkedAdd 64 totals.data len with
    | none => return (none, out)
    | some dataEnd =>
      if dataEnd > trailer then return (none, out)
      let out := out.set i { addr, off := totals.data, len, mode := ramMode feature, skip, override_addr := overrides }
      ramFrom image trailer n left (i + 1) { totals with data := ← add64 totals.data len } out

def ramRegions (image : Image) (out : List Region) :
    Check (Option (Nat × Nat × BitVec 32) × List Region) := do
  if image.bytes.length < RAM_TRAILER ∨ out = [] then return (none, out)
  let trailer ← sub64 image.bytes.length RAM_TRAILER
  let n := (← byteAt image.bytes (← add64 trailer 2)).toNat
  if n = 0 ∨ n > min out.length MAX_REGIONS then return (none, out)
  let (totals, out) ← ramFrom image trailer n n 0 {} out
  return (totals.map fun totals => (n, totals.override_addr, totals.option), out)

/-! ### What is wanted -/

/-- The region lies in the image. -/
def Region.Inside (image : Image) (r : Region) : Prop := r.off + r.len ≤ image.bytes.length

/-- The regions follow one another, from one offset to another. -/
def Follow : Nat → List Region → Nat → Prop
  | start, [], stop => start = stop
  | start, r :: rest, stop => r.off = start ∧ Follow (start + r.len) rest stop

/-- `patch_regions` ends, and its regions lie in the image. -/
def PatchSafe (image : Image) (out : List Region) : Prop :=
  ∃ result filled, (patchRegions image out).Gives (result, filled) ∧
    ∀ n, result = some n → n ≤ filled.length ∧ ∀ r ∈ filled.take n, r.Inside image

/-- `ram_regions` ends, and its regions lie in the image and follow one another up to the table at most. -/
def RamSafe (image : Image) (out : List Region) : Prop :=
  ∃ result filled, (ramRegions image out).Gives (result, filled) ∧
    ∀ n addr option, result = some (n, addr, option) → n ≤ filled.length ∧
      (∀ r ∈ filled.take n, r.Inside image) ∧
      ∃ stop, Follow 0 (filled.take n) stop ∧ stop + n * RAM_REGION + RAM_TRAILER ≤ image.bytes.length

/-! ### The RAM image -/

namespace Image

def trailer (image : Image) : Nat := image.bytes.length - RAM_TRAILER

/-- The number of regions in the trailer. -/
def count (image : Image) : Nat := (image.bytes.getD (image.trailer + 2) 0).toNat

/-- The trailer is there, and its count is accepted for an array of `room` regions. -/
def Counted (image : Image) (room : Nat) : Prop :=
  RAM_TRAILER ≤ image.bytes.length ∧ image.count ≠ 0 ∧ image.count ≤ min room MAX_REGIONS

/-- The length field of region `k`. -/
def lenAt (image : Image) (k : Nat) : Nat :=
  let start := image.trailer - (image.count - k) * RAM_REGION
  leValue ((image.bytes.take (start + 24)).drop (start + 20))

/-- The sum of the first length fields. -/
def total (image : Image) : Nat → Nat
  | 0 => 0
  | k + 1 => image.total k + image.lenAt k

end Image

/-- The table ends at the trailer and does not begin before the image, and the regions end before it
or beyond the trailer. -/
def TableClear (image : Image) (room : Nat) : Prop :=
  image.Counted room → image.count * RAM_REGION ≤ image.trailer ∧
    (image.total image.count ≤ image.trailer → image.total image.count + image.count * RAM_REGION ≤
      image.trailer)

/-! ### The loops -/

theorem gives_sub64 {a b : Nat} (h : b ≤ a) : (sub64 a b).Gives (a - b) := by
  rw [sub64, if_pos h]
  exact (gives_pure).mpr rfl

/-- A record of the image has its length. -/
theorem length_record {bytes : List UInt8} {start size : Nat} (h : start + size ≤ bytes.length) :
    ((bytes.take (start + size)).drop start).length = size := by
  rw [List.length_drop, List.length_take]
  omega

/-- A field of a record, by its place in the image. -/
theorem field_record (bytes : List UInt8) (start : Nat) {size a b : Nat} (hb : b ≤ size) :
    (((bytes.take (start + size)).drop start).take b).drop a =
      (bytes.take (start + b)).drop (start + a) := by
  have hrecord : (bytes.take (start + size)).drop start = (bytes.drop start).take size := by
    rw [List.drop_take, Nat.add_sub_cancel_left]
  rw [hrecord, List.take_take, Nat.min_eq_left hb, List.drop_take, List.drop_take, List.drop_drop]
  congr 1
  omega

/-- The regions that a loop has written from one slot on. -/
def Written (out filled : List Region) (i left : Nat) (regions : List Region) : Prop :=
  regions.length = left ∧ filled = out.take i ++ regions ++ out.drop (i + left)

theorem Written.nil (out : List Region) (i : Nat) : Written out out i 0 [] :=
  ⟨rfl, by rw [List.append_nil, Nat.add_zero, List.take_append_drop]⟩

theorem Written.cons {out filled regions : List Region} {i left : Nat} {r : Region} (hi : i < out.length)
    (h : Written (out.set i r) filled (i + 1) left regions) : Written out filled i (left + 1)
      (r :: regions) := by
  obtain ⟨hlen, hfilled⟩ := h
  refine ⟨by rw [List.length_cons, hlen], ?_⟩
  have htake : (out.set i r).take (i + 1) = out.take i ++ [r] := by
    have hset : out.set i r = out.take i ++ [r] ++ out.drop (i + 1) := by
      rw [List.set_eq_take_append_cons_drop, if_pos hi, List.append_assoc]
      rfl
    rw [hset]
    apply List.take_left'
    rw [List.length_append, List.length_take, Nat.min_eq_left (Nat.le_of_lt hi)]
    rfl
  have hdrop : (out.set i r).drop (i + 1 + left) = out.drop (i + (left + 1)) := by
    rw [List.drop_set_of_lt (by omega)]
    congr 1
    omega
  rw [hfilled, htake, hdrop]
  simp

/-- From the first slot on these are the first slots. -/
theorem Written.take {out filled regions : List Region} {n : Nat} (h : Written out filled 0 n regions) :
    n ≤ filled.length ∧ filled.take n = regions := by
  obtain ⟨hlen, rfl⟩ := h
  rw [List.take_zero, List.nil_append, List.length_append, hlen]
  exact ⟨Nat.le_add_right _ _, List.take_left' hlen⟩

theorem patchFrom_ends (image : Image) (left i : Nat) (out : List Region) (hsmall : i + left ≤ MAX_REGIONS)
    (hroom : i + left ≤ out.length) :
    (patchFrom image left i out).Ensures fun (done, filled) =>
      done = true → ∃ regions, Written out filled i left regions ∧ ∀ r ∈ regions, r.Inside image := by
  induction left generalizing i out with
  | zero => exact .pure fun _ => ⟨[], .nil out i, fun _ h => nomatch h⟩
  | succ left ih =>
    simp only [MAX_REGIONS] at hsmall
    have hstart : i * PATCH_SEC < 2 ^ 64 ∧ PATCH_HDR + i * PATCH_SEC + PATCH_SEC < 2 ^ 64 := by
      simp only [PATCH_SEC, PATCH_HDR]
      omega
    rw [patchFrom]
    refine .bind ((gives_mul64).mpr ⟨hstart.1, rfl⟩) (.bind ((gives_add64).mpr ⟨by omega, rfl⟩)
      (.bind ((gives_add64).mpr ⟨hstart.2, rfl⟩) (.ite (fun _ => .pure fun h => nomatch h) fun hget => ?_)))
    have hsec := @length_record image.bytes (PATCH_HDR + i * PATCH_SEC) PATCH_SEC (by omega)
    refine .bind (gives_beAt ⟨by decide, by rw [hsec]; decide⟩)
      (.ite (fun _ => .pure fun h => nomatch h) fun hkind => ?_)
    refine .bind (gives_beAt ⟨by decide, by rw [hsec]; decide⟩)
      (.bind (gives_beAt ⟨by decide, by rw [hsec]; decide⟩)
      (.bind (gives_beAt ⟨by decide, by rw [hsec]; decide⟩)
        (.bind (gives_beAt ⟨by decide, by rw [hsec]; decide⟩) ?_)))
    split
    · next mode dataEnd hmode hend =>
      refine .ite (fun _ => .pure fun h => nomatch h) fun hinside => ?_
      obtain ⟨⟨done, filled⟩, hgives, hdone⟩ :=
        ih (i + 1) (out.set i ⟨_, _, _, mode, false, false⟩) (by simp only [MAX_REGIONS]; omega)
          (by rw [List.length_set]; omega)
      refine ⟨(done, filled), hgives, fun h => ?_⟩
      obtain ⟨regions, hwritten, hregions⟩ := hdone h
      refine ⟨_, hwritten.cons (by omega), fun r hr => ?_⟩
      rcases List.mem_cons.mp hr with rfl | hr
      · change _ + _ ≤ _
        rw [(checkedAdd_eq_some hend).2]
        exact Nat.le_of_not_gt hinside
      · exact hregions r hr
    · exact .pure fun h => nomatch h

/-- The patch is read safely whatever the image is. -/
theorem patch_safe (image : Image) (out : List Region) : PatchSafe image out := by
  suffices h : (patchRegions image out).Ensures fun (result, filled) =>
      ∀ n, result = some n → n ≤ filled.length ∧ ∀ r ∈ filled.take n, r.Inside image by
    obtain ⟨⟨result, filled⟩, hgives, hinside⟩ := h
    exact ⟨result, filled, hgives, hinside⟩
  refine .ite (fun _ => .pure fun _ h => nomatch h) fun hhead => ?_
  simp only [PATCH_HDR, not_or] at hhead
  refine .bind (gives_beAt ⟨by decide, by omega⟩)
    (.ite (fun _ => .pure fun _ h => nomatch h) fun hcount => ?_)
  rw [not_or] at hcount
  generalize leValue ((image.bytes.take 48).drop 44).reverse = count at hcount ⊢
  obtain ⟨⟨done, filled⟩, hgives, hdone⟩ := patchFrom_ends image count 0 out
    (by rw [Nat.zero_add]; exact (Nat.le_of_not_gt hcount.2).trans (Nat.min_le_right _ _))
    (by rw [Nat.zero_add]; exact (Nat.le_of_not_gt hcount.2).trans (Nat.min_le_left _ _))
  refine .bind hgives (.pure fun n hn => ?_)
  cases done with
  | false => cases hn
  | true =>
    obtain ⟨regions, hwritten, hregions⟩ := hdone rfl
    obtain rfl := Option.some.inj hn
    obtain ⟨hlen, htake⟩ := hwritten.take
    rw [htake]
    exact ⟨hlen, hregions⟩

section ram

variable {image : Image} {room : Nat}

theorem total_le {n : Nat} {k : Nat} (h : k ≤ n) : image.total k ≤ image.total n := by
  induction n with
  | zero => rw [Nat.le_zero.mp h]
  | succ n ih =>
    rcases Nat.le_succ_iff.mp h with h | rfl
    · exact (ih h).trans (Nat.le_add_right _ _)
    · exact Nat.le_refl _

/-- With the table in the image the loop ends, and it accepts the regions when they end at the
trailer at most. -/
theorem ramFrom_ends (hcount : image.Counted room) (htable : image.count * RAM_REGION ≤
    image.trailer) (left i : Nat)
    (hi : i + left = image.count) (totals : RamTotals) (hdata : totals.data = image.total i)
      (hle : totals.data ≤ image.trailer)
    (out : List Region) (hroom : image.count ≤ out.length) :
    (ramFrom image image.trailer image.count left i totals out).Ensures fun (last, filled) =>
      (last.isSome = true ↔ image.total image.count ≤ image.trailer) ∧
      (last.isSome = true → ∃ regions, Written out filled i left regions ∧
        Follow (image.total i) regions (image.total image.count)) := by
  induction left generalizing i totals out with
  | zero =>
    obtain rfl : i = image.count := hi
    refine .pure ⟨⟨fun _ => hdata ▸ hle, fun _ => rfl⟩, fun _ => ⟨[], .nil out _, rfl⟩⟩
  | succ left ih =>
    obtain ⟨htrailer, _, hmax⟩ := hcount
    have hfits := image.fits
    have hdef : image.trailer = image.bytes.length - RAM_TRAILER := rfl
    have hsmall : image.count ≤ 8 := hmax.trans (Nat.min_le_right _ _)
    have hrest : (image.count - i) * RAM_REGION ≤ image.count * RAM_REGION :=
      Nat.mul_le_mul_right _ (Nat.sub_le _ _)
    have hone : 1 * RAM_REGION ≤ (image.count - i) * RAM_REGION := Nat.mul_le_mul_right _ (by omega)
    have hend : image.trailer - (image.count - i) * RAM_REGION + RAM_REGION ≤ image.bytes.length := by
      simp only [RAM_TRAILER, RAM_REGION] at *
      omega
    have hregion := length_record hend
    rw [ramFrom]
    refine .bind (gives_sub64 (by omega)) (.bind ((gives_mul64).mpr ⟨by omega, rfl⟩)
      (.bind (gives_sub64 (hrest.trans htable))
      (.bind ((gives_add64).mpr ⟨by omega, rfl⟩) ?_)))
    rw [if_neg (Nat.not_lt.mpr hend)]
    refine .bind (gives_leAt ⟨by decide, by rw [hregion]; decide⟩)
      (.bind (gives_leAt ⟨by decide, by rw [hregion]; decide⟩)
      (.bind (gives_byteAt_getD (by rw [hregion]; decide)) ?_))
    rw [field_record image.bytes _ (by decide : 24 ≤ RAM_REGION)]
    change Check.Ensures (match checkedAdd 64 (ite _ _ _ : RamTotals).data
      (image.lenAt i) with | none => _ | some dataEnd => _) _
    have hnext : ∀ (overrides : Bool) (addr : Nat),
        (if overrides = true then { totals with override_addr := addr, option := totals.option ||| 1 } else totals).data =
          image.total i := by
      intro overrides addr
      cases overrides <;> exact hdata
    have hbeyond : image.trailer < image.total (i + 1) → ¬ image.total image.count ≤ image.trailer := by
      intro hlt hle
      exact absurd (hlt.trans_le (total_le (k := i + 1) (by omega))) (Nat.not_lt.mpr hle)
    simp only [hnext]
    cases hsum : checkedAdd 64 (image.total i) (image.lenAt i) with
    | none =>
      have hover : 2 ^ 64 ≤ image.total (i + 1) := by
        unfold checkedAdd at hsum
        split_ifs at hsum with hlt
        exact Nat.le_of_not_gt hlt
      exact .pure ⟨⟨fun h => (nomatch h), fun h => absurd h (hbeyond (by omega))⟩, fun h => (nomatch h)⟩
    | some dataEnd =>
      obtain ⟨hlt, hdataEnd⟩ := checkedAdd_eq_some hsum
      have hdef' : image.total (i + 1) = dataEnd := hdataEnd
      refine .ite (fun hgt => ?_) fun hgt => ?_
      · exact .pure ⟨⟨fun h => (nomatch h), fun h => absurd h (hbeyond (by omega))⟩, fun h => (nomatch h)⟩
      · refine .bind ((gives_add64).mpr ⟨hlt, rfl⟩) ?_
        refine (ih (i + 1) (by omega) _ rfl ?_ _ ?_).mono ?_
        · change image.total i + image.lenAt i ≤ _
          omega
        · rw [List.length_set]
          exact hroom
        · rintro ⟨last, filled⟩ ⟨hlast, hwrites⟩
          refine ⟨hlast, fun hsome => ?_⟩
          obtain ⟨regions, hwritten, hfollow⟩ := hwrites hsome
          exact ⟨_, hwritten.cons (by omega), rfl, hfollow⟩

/-- With the table beyond the start of the image the first subtraction crashes. -/
theorem ramFrom_crashes (hcount : image.Counted room) (htable : ¬ image.count * RAM_REGION ≤
    image.trailer) (out : List Region) :
    ¬ (ramFrom image image.trailer image.count image.count 0 {} out).Runs := by
  obtain ⟨_, hne, hmax⟩ := hcount
  have hsmall : image.count ≤ 8 := hmax.trans (Nat.min_le_right _ _)
  obtain ⟨m, hm⟩ := Nat.exists_eq_succ_of_ne_zero hne
  have hcrash : sub64 image.trailer (image.count * RAM_REGION) = crash := if_neg htable
  generalize hn : image.count = n at *
  subst hm
  rw [ramFrom, (gives_sub64 (Nat.zero_le _)).runs_bind_iff, Nat.sub_zero,
    ((gives_mul64).mpr ⟨by simp only [RAM_REGION]; omega, rfl⟩).runs_bind_iff, hcrash, runs_bind]
  rintro ⟨_, h, _⟩
  exact not_gives_crash h

end ram

/-- The regions that follow one another up to an offset lie below it. -/
theorem Follow.below {start stop : Nat} {regions : List Region} (h : Follow start regions stop) :
    start ≤ stop ∧ ∀ r ∈ regions, r.off + r.len ≤ stop := by
  induction regions generalizing start with
  | nil => exact ⟨Nat.le_of_eq h, fun _ hr => nomatch hr⟩
  | cons r rest ih =>
    obtain ⟨hoff, hrest⟩ := h
    obtain ⟨hle, hall⟩ := ih hrest
    refine ⟨(Nat.le_add_right _ _).trans hle, fun other hr => ?_⟩
    rcases List.mem_cons.mp hr with rfl | hr
    · rw [hoff]
      exact hle
    · exact hall other hr

/-- The end is determined by the regions. -/
theorem Follow.unique {start stop stop' : Nat} {regions : List Region} (h : Follow start regions stop)
    (h' : Follow start regions stop') : stop = stop' := by
  induction regions generalizing start with
  | nil => exact Eq.trans (Eq.symm h) h'
  | cons r rest ih => exact ih h.2 h'.2

section regions

variable {image : Image} {out : List Region}

/-- Behind a trailer `ram_regions` reads the count. -/
theorem ramRegions_head (hlen : RAM_TRAILER ≤ image.bytes.length) (hout : out ≠ [])
    (x : Option (Nat × Nat × BitVec 32) × List Region) :
    (ramRegions image out).Gives x ↔
      (if image.count = 0 ∨ image.count > min out.length MAX_REGIONS then pure (none, out)
      else ramFrom image image.trailer image.count image.count 0 {} out >>= fun last =>
        pure (last.1.map fun totals => (image.count, totals.override_addr, totals.option),
          last.2) : Check _).Gives x := by
  have hfits := image.fits
  have hplace : image.bytes.length - RAM_TRAILER + 2 < image.bytes.length := by
    simp only [RAM_TRAILER] at *
    omega
  rw [ramRegions, if_neg (by simp [hout, hlen])]
  rw [(gives_sub64 hlen).bind_iff, ((gives_add64).mpr ⟨by omega, rfl⟩).bind_iff,
    (gives_byteAt_getD hplace).bind_iff]
  rfl

/-- Without an accepted count `ram_regions` yields nothing. -/
theorem ramRegions_uncounted (h : ¬ image.Counted out.length) :
    (ramRegions image out).Gives (none, out) := by
  by_cases hshort : image.bytes.length < RAM_TRAILER ∨ out = []
  · rw [ramRegions, if_pos hshort]
    exact (gives_pure).mpr rfl
  · rw [not_or, Nat.not_lt] at hshort
    have hrefused : image.count = 0 ∨ image.count > min out.length MAX_REGIONS := by
      by_contra hno
      rw [not_or] at hno
      exact h ⟨hshort.1, hno.1, Nat.le_of_not_gt hno.2⟩
    rw [ramRegions_head hshort.1 hshort.2, if_pos hrefused]
    exact (gives_pure).mpr rfl

theorem ramRegions_counted (h : image.Counted out.length)
    (x : Option (Nat × Nat × BitVec 32) × List Region) :
    (ramRegions image out).Gives x ↔
      (ramFrom image image.trailer image.count image.count 0 {} out >>= fun last =>
        pure (last.1.map fun totals => (image.count, totals.override_addr, totals.option),
          last.2)).Gives x := by
  obtain ⟨hlen, hne, hmax⟩ := h
  have hout : out ≠ [] := by
    rintro rfl
    exact hne (Nat.le_zero.mp (hmax.trans (Nat.min_le_left _ _)))
  rw [ramRegions_head hlen hout, if_neg (not_or.mpr ⟨hne, Nat.not_lt.mpr hmax⟩)]

theorem ram_safe_iff : RamSafe image out ↔ TableClear image out.length := by
  by_cases hcounted : image.Counted out.length
  · by_cases htable : image.count * RAM_REGION ≤ image.trailer
    · -- the loop ends, and the regions end at the sum of the lengths
      have hroom : image.count ≤ out.length := hcounted.2.2.trans (Nat.min_le_left _ _)
      have htrailer : image.trailer + RAM_TRAILER = image.bytes.length := Nat.sub_add_cancel hcounted.1
      obtain ⟨⟨last, filled⟩, hgives, hlast, hwrites⟩ :=
        ramFrom_ends hcounted htable image.count 0 (Nat.zero_add _) {} rfl
        (Nat.zero_le _) out hroom
      have hresult : (ramRegions image out).Gives
          (last.map fun totals => (image.count, totals.override_addr, totals.option), filled) := by
        rw [ramRegions_counted hcounted, hgives.bind_iff]
        exact (gives_pure).mpr rfl
      constructor
      · rintro ⟨result, filled', hgives', hsafe⟩ _
        refine ⟨htable, fun hle => ?_⟩
        obtain ⟨rfl, rfl⟩ := Prod.mk.inj (hgives'.unique hresult)
        have hsome := hlast.mpr hle
        obtain ⟨totals, rfl⟩ := Option.isSome_iff_exists.mp hsome
        obtain ⟨_, _, stop, hfollow, hclear⟩ := hsafe _ _ _ rfl
        obtain ⟨regions, hwritten, hregions⟩ := hwrites rfl
        rw [hwritten.take.2] at hfollow
        have hstop : stop = image.total image.count := hfollow.unique hregions
        rw [hstop] at hclear
        omega
      · intro hclear
        refine ⟨_, filled, hresult, fun n addr option hn => ?_⟩
        obtain ⟨totals, rfl, htotals⟩ := Option.map_eq_some_iff.mp hn
        obtain rfl : image.count = n := congrArg Prod.fst htotals
        have hle := hlast.mp rfl
        have hbelow := (hclear hcounted).2 hle
        obtain ⟨regions, hwritten, hregions⟩ := hwrites rfl
        obtain ⟨hlen, htake⟩ := hwritten.take
        rw [htake]
        refine ⟨hlen, fun r hr => ?_, image.total image.count, hregions, by omega⟩
        have hr := hregions.below.2 r hr
        change r.off + r.len ≤ image.bytes.length
        omega
    · constructor
      · rintro ⟨result, filled, hgives, _⟩ _
        rw [ramRegions_counted hcounted, gives_bind] at hgives
        obtain ⟨last, hloop, _⟩ := hgives
        exact absurd hloop.runs (ramFrom_crashes hcounted htable out)
      · exact fun hclear => absurd (hclear hcounted).1 htable
  · exact ⟨fun _ h => absurd h hcounted, fun _ => ⟨none, out, ramRegions_uncounted hcounted,
      fun _ _ _ h => nomatch h⟩⟩

end regions

/-- The tables are read safely exactly when the RAM table is clear of the start of the image and of
the regions. -/
theorem regions_exact (image : Image) (out : List Region) :
    PatchSafe image out ∧ RamSafe image out ↔ TableClear image out.length := by
  rw [and_iff_right (patch_safe image out)]
  exact ram_safe_iff

def emptyRegion : Region := ⟨0, 0, 0, 0, false, false⟩

/-- A trailer with a count of one, and nothing in front of it. -/
def bareTrailer : Image := ⟨[0, 0, 1] ++ List.replicate 33 0, by decide⟩

/-- One region of 40 bytes, which are those of the table. -/
def tableAsRegion : Image := ⟨List.replicate 20 0 ++ [40] ++ List.replicate 19 0 ++ [0, 0, 1] ++
    List.replicate 33 0, by decide⟩

/-- The subtraction goes below zero; and a region lies over the table. -/
theorem ramRegions_unclear :
    ((ramRegions bareTrailer [emptyRegion]).value = none ∧ ¬ RamSafe bareTrailer [emptyRegion]) ∧
    (ramRegions tableAsRegion [emptyRegion]).value =
      some (some (1, 0, 0), [{ emptyRegion with len := 40, mode := DL_NEED_RSP }]) ∧
    ¬ RamSafe tableAsRegion [emptyRegion] := by
  rw [ram_safe_iff, ram_safe_iff]
  refine ⟨⟨by decide, fun h => ?_⟩, by decide, fun h => ?_⟩
  · exact absurd (h ⟨by decide, by decide, by decide⟩).1 (by decide)
  · exact absurd ((h ⟨by decide, by decide, by decide⟩).2 (by decide)) (by decide)

end Lerux.Mt7921
