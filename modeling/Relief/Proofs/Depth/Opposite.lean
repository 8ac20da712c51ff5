import Relief.Proofs.Depth.Parallel
import Relief.Proofs.Number.Circle

/-!
# Opposite slopes

A surface and its mould have opposite slopes. Whatever is rounded along a ray, its visits to the one
are those to the other with the opposite running integrals, so that the sums of the two tallies are
opposite words and the counts are the same.

* `Pixel.opposite`, `Slopes.opposite`: the field of the mould;
* `Opposed`: two running numbers that are opposite and not too great, or both no numbers;
  `Opposed.add`, `Opposed.sub`, `climb_opposed`: **every operation of a ray keeps them so**;
* `quantize_opposed`: opposite integrals are tallied as opposite words, unless they are held back at
  the end of the range;
* `headingVisits_opposite`: **the visits of a heading are the same but for their sign**;
* `opposite_slopes_oppose_sums`: so are the sums, whoever integrates the two fields.
-/

namespace Relief

open Float.Model (UnpackedFloat)

/-! ## 1. The field of the mould -/

/-- The pixel of a slope field with the opposite slopes. -/
def Pixel.opposite (p : Pixel) : Pixel :=
  { p with red := 255 - p.red, green := 255 - p.green }

/-- The field with the opposite slopes everywhere. -/
def Slopes.opposite (s : Slopes) : Slopes where
  image :=
    { s.image with
      pixels := s.image.pixels.map Pixel.opposite
      size_pixels := by rw [Array.size_map]; exact s.image.size_pixels }

/-- The visit of the same pixel with the opposite running integral. -/
def Visit.opposite (v : Visit) : Visit :=
  ⟨v.slot, -v.value⟩

/-! ## 2. Opposite numbers -/

namespace Double

/-- Two numbers that are opposite and at most a bound in magnitude, or are both no numbers. -/
def Opposed (bound : ℚ) (x y : Float) : Prop :=
  (x = nan ∧ y = nan) ∨ ∃ q, Is x q ∧ Is y (-q) ∧ |q| ≤ bound

section Opposed

variable {x y v w : Float} {b c : ℚ}

theorem opposed_zero : Opposed 0 0 0 := by
  have zero := is_zero
  exact .inr ⟨0, zero, by rwa [neg_zero], abs_zero.le⟩

theorem Opposed.mono (h : Opposed b x y) (le : b ≤ c) : Opposed c x y :=
  h.imp_right fun ⟨q, hx, hy, small⟩ => ⟨q, hx, hy, small.trans le⟩

/-- A sum and the sum of the opposite numbers are rounded to opposite numbers. -/
theorem Is.opposed_add {p q : ℚ} (hx : Is x p) (hy : Is y (-p)) (hv : Is v q) (hw : Is w (-q))
    (fits : Fits b) (small : |p + q| ≤ b) : Opposed b (x + v) (y + w) := by
  have inside : |p + q| ≤ greatest := fits.abs_le_greatest small
  have mirrored : -p + -q = -(p + q) := (neg_add p q).symm
  refine .inr ⟨rounded (p + q), hx.add_rounded hv inside, ?_, abs_rounded_le_of_fits fits small⟩
  rw [← rounded_neg, ← mirrored]
  exact hy.add_rounded hw (by rwa [mirrored, abs_neg])

/-- **Sums of opposite numbers are opposite.** -/
theorem Opposed.add (h : Opposed b x y) (h' : Opposed c v w) (fits : Fits (b + c)) :
    Opposed (b + c) (x + v) (y + w) := by
  rcases h with ⟨rfl, rfl⟩ | ⟨p, hx, hy, hp⟩
  · exact .inl ⟨nan_add v, nan_add w⟩
  rcases h' with ⟨rfl, rfl⟩ | ⟨q, hv, hw, hq⟩
  · exact .inl ⟨add_nan x, add_nan y⟩
  exact hx.opposed_add hy hv hw fits ((abs_add_le p q).trans (add_le_add hp hq))

/-- **Differences of opposite numbers are opposite.** -/
theorem Opposed.sub (h : Opposed b x y) (h' : Opposed c v w) (fits : Fits (b + c)) :
    Opposed (b + c) (x - v) (y - w) := by
  rcases h with ⟨rfl, rfl⟩ | ⟨p, hx, hy, hp⟩
  · exact .inl ⟨nan_sub v, nan_sub w⟩
  rcases h' with ⟨rfl, rfl⟩ | ⟨q, hv, hw, hq⟩
  · exact .inl ⟨sub_nan x, sub_nan y⟩
  have small : |p + -q| ≤ b + c := by
    rw [← Rat.sub_eq_add_neg]
    exact (abs_sub p q).trans (add_le_add hp hq)
  rw [hx.sub_eq hv, hy.sub_eq hw]
  exact hx.opposed_add hy hv.neg hw.neg fits small

/-- **So are multiples**, by a factor that is at most one or no number. -/
theorem Opposed.mul {d : Float} (hd : d = nan ∨ IsBounded d) {q : ℚ} (hx : Is x q)
    (hy : Is y (-q)) (fits : Fits b) (small : |q| ≤ b) : Opposed b (d * x) (d * y) := by
  rcases hd with rfl | ⟨p, hd, bounded⟩
  · exact .inl ⟨nan_mul x, nan_mul y⟩
  have product : |p * q| ≤ b := by
    rw [abs_mul]
    exact (mul_le_of_le_one_left (abs_nonneg q) bounded).trans small
  have inside : |p * q| ≤ greatest := fits.abs_le_greatest product
  refine .inr ⟨rounded (p * q), hd.mul_rounded hx inside, ?_, abs_rounded_le_of_fits fits product⟩
  rw [← rounded_neg, ← mul_neg]
  exact hd.mul_rounded hy (by rwa [mul_neg, abs_neg])

end Opposed

end Double

/-! ## 3. Opposite rays -/

open Double (Is IsBounded Opposed Fits nan)

section Climb

variable {step : Point}

theorem Slopes.is_decode (channel : UInt8) :
    Is (Slopes.decode channel) ((channel.toNat : ℚ) - 255 / 2) := by
  have offset : Is 127.5 (255 / 2) := by
    have exact := Double.is_of_unpack (x := 127.5) (s := .positive) (m := 8972014882652160)
      (e := -46) (by decide) rfl
    have value : Double.signed .positive (((8972014882652160 : ℕ) : ℚ) * 2 ^ (-46 : ℤ))
        = 255 / 2 := by
      show ((8972014882652160 : ℕ) : ℚ) * 2 ^ (-46 : ℤ) = 255 / 2
      norm_num
    rwa [value] at exact
  have whole : Is channel.toFloat channel.toNat :=
    Double.is_ofNat (channel.toNat_lt.trans (by norm_num))
  refine whole.sub offset ?_
  have half : (channel.toNat : ℚ) - 255 / 2 = (2 * channel.toNat - 255 : ℤ) * 2 ^ (-1 : ℤ) := by
    push_cast
    rw [zpow_neg_one]
    ring
  rw [half]
  have := channel.toNat_lt
  exact Double.fits_of_lt (by omega) (by norm_num) (by norm_num)

/-- **Opposite channels stand for opposite slopes**, which are at most 127.5. -/
theorem Slopes.decode_opposite (channel : UInt8) :
    ∃ q, Is (Slopes.decode channel) q ∧ Is (Slopes.decode (255 - channel)) (-q) ∧
      |q| ≤ 255 / 2 := by
  have opposite := Slopes.is_decode (255 - channel)
  have lt := channel.toNat_lt
  have value : ((255 - channel : UInt8).toNat : ℚ) = 255 - channel.toNat := by
    have whole : (255 - channel : UInt8).toNat = 255 - channel.toNat :=
      UInt8.toNat_sub_of_le 255 channel (UInt8.le_iff_toNat_le.mpr (Nat.le_of_lt_succ lt))
    rw [whole, Nat.cast_sub (by omega)]
    norm_num
  refine ⟨_, Slopes.is_decode channel, ?_, ?_⟩
  · rw [value] at opposite
    convert opposite using 1
    ring
  · have low : (0 : ℚ) ≤ channel.toNat := Nat.cast_nonneg _
    have high : (channel.toNat : ℚ) ≤ 255 := by exact_mod_cast Nat.le_of_lt_succ lt
    rw [abs_le]
    constructor <;> linarith

/-- **Opposite fields climb opposite ways** along a step, at most by 255. -/
theorem Slopes.climb_opposed (h : step = ⟨nan, nan⟩ ∨ (IsBounded step.x ∧ IsBounded step.y))
    (p : Pixel) :
    Opposed 255 (Slopes.climb p step.x step.y) (Slopes.climb p.opposite step.x step.y) := by
  have across : step.x = nan ∨ IsBounded step.x := h.imp (fun e => by rw [e]) And.left
  have down : step.y = nan ∨ IsBounded step.y := h.imp (fun e => by rw [e]) And.right
  obtain ⟨r, red, red', hr⟩ := Slopes.decode_opposite p.red
  obtain ⟨g, green, green', hg⟩ := Slopes.decode_opposite p.green
  have half : Fits (255 / 2) := by
    have := Double.fits_of_lt (n := 255) (e := -1) (by norm_num) (by norm_num) (by norm_num)
    convert this using 1
    norm_num
  have whole : (255 / 2 + 255 / 2 : ℚ) = 255 := by norm_num
  have fits : Fits (255 / 2 + 255 / 2) := by
    rw [whole]
    exact Double.fits_intCast (n := 255) (by norm_num)
  have sum := (Opposed.mul across red red' half hr).add (Opposed.mul down green green' half hg) fits
  rw [whole] at sum
  have same : Slopes.isKnown p.opposite = Slopes.isKnown p := rfl
  unfold Slopes.climb
  rw [same]
  split
  · exact sum
  · exact Double.opposed_zero.mono (by norm_num)

end Climb

namespace Ray

theorem quantize_nan : quantize nan = 0 := by
  decide +kernel

/-- An integral in the range of the words is tallied as the whole number that it is rounded to. -/
theorem quantize_eq {x : Float} {q : ℚ} {n : ℕ} (hx : Is x q) (bound : |q| ≤ n)
    (small : n < 2 ^ 31) : quantize x = .ofInt (Int.away q) := by
  obtain ⟨low, high⟩ := abs_le.mp (Int.abs_away_le bound)
  have held : max (-2 ^ 31) (min (2 ^ 31 - 1) (Int.away q)) = Int.away q := by omega
  unfold quantize Double.toInt
  rw [hx.round.truncate (by omega), held]

/-- **Opposite integrals are tallied as opposite words**, unless they are held back at the end of
    the range. -/
theorem quantize_opposed {x y : Float} {n : ℕ} (h : Opposed n x y) (small : n < 2 ^ 31) :
    quantize y = -quantize x := by
  rcases h with ⟨rfl, rfl⟩ | ⟨q, hx, hy, bound⟩
  · rw [quantize_nan]
    rfl
  rw [quantize_eq hx bound small, quantize_eq hy (by rwa [abs_neg]) small, Int.away_neg,
    Int32.ofInt_neg]

/-- **A ray visits opposite fields with opposite running integrals**, from wherever it has come to
    after some steps. -/
theorem march_opposite (slopes : Slopes) (launch : Launch) {step : Point}
    (h : step = ⟨nan, nan⟩ ∨ (IsBounded step.x ∧ IsBounded step.y)) (fuel : ℕ) {steps : ℕ}
    (small : 255 * (steps + fuel) < 2 ^ 31) (position : Point) (last : Option Cell) {x y : Float}
    (integrals : Opposed (255 * steps : ℕ) x y) :
    march slopes.opposite launch step fuel position last y
      = (march slopes launch step fuel position last x).map Visit.opposite := by
  induction fuel generalizing steps position last x y with
  | zero => rfl
  | succ fuel ih =>
    have same : slopes.opposite.extent = slopes.extent := rfl
    have pixels (slot : ℕ) : slopes.opposite.image.pixels[slot]?
        = (slopes.image.pixels[slot]?).map Pixel.opposite := Array.getElem?_map
    unfold march
    dsimp only
    split
    · split
      · exact ih (by omega) _ _ integrals
      · rw [same]
        cases slopes.extent.slot? _ _ with
        | none => exact ih (by omega) _ _ integrals
        | some slot =>
          dsimp only
          rw [pixels]
          cases slopes.image.pixels[slot]? with
          | none => exact ih (by omega) _ _ integrals
          | some p =>
            have bound : ((255 * steps : ℕ) : ℚ) + 255 = (255 * (steps + 1) : ℕ) := by
              push_cast
              ring
            have fits : Fits (((255 * steps : ℕ) : ℚ) + 255) := by
              rw [bound]
              exact Double.fits_intCast (n := (255 * (steps + 1) : ℕ)) (by omega)
            have next := integrals.sub (Slopes.climb_opposed h p) fits
            rw [bound] at next
            dsimp only [Option.map_some]
            rw [List.map_cons, ih (by omega) _ _ next, quantize_opposed next (by omega)]
            rfl
    · rfl

end Ray

/-! ## 4. Opposite sums -/

namespace Integration

variable {slopes : Slopes} {launch : Launch}

/-- **The rays of a heading visit opposite fields with opposite running integrals.** -/
theorem visits_opposite (small : 255 * launch.maxSteps < 2 ^ 31) (heading : Heading)
    (start : Point) :
    Ray.visits slopes.opposite launch heading.step start
      = (Ray.visits slopes launch heading.step start).map Visit.opposite :=
  have zero : Opposed ((255 * 0 : ℕ) : ℚ) 0 0 := by
    rw [Nat.mul_zero, Nat.cast_zero]
    exact Double.opposed_zero
  Ray.march_opposite slopes launch heading.step_bounded launch.maxSteps (by omega) start none zero

theorem headingVisits_opposite (small : 255 * launch.maxSteps < 2 ^ 31) (heading : Heading) :
    headingVisits slopes.opposite launch heading
      = (headingVisits slopes launch heading).map Visit.opposite := by
  unfold headingVisits
  rw [List.map_flatMap]
  refine List.flatMap_congr fun start _ => ?_
  unfold rayVisits
  split
  · exact visits_opposite small heading.opposite start
  · rfl

end Integration

namespace Tally

/-- Adding the opposite word to an opposite slot. -/
theorem modify_opposite (slots : Array Int32) (slot : ℕ) (amount : Int32) :
    (slots.map (-·)).modify slot (· + -amount) = (slots.modify slot (· + amount)).map (-·) := by
  apply Array.ext_getElem?
  intro i
  simp only [Array.getElem?_modify, Array.getElem?_map]
  split
  · cases slots[i]? with
    | none => rfl
    | some sum =>
      refine congrArg some ?_
      show -sum + -amount = -(sum + amount)
      rw [Int32.neg_add, Int32.sub_eq_add_neg]
  · rfl

theorem post_opposite (visits : List Visit) (slots : Array Int32) :
    post Visit.value (visits.map Visit.opposite) (slots.map (-·))
      = (post Visit.value visits slots).map (-·) := by
  induction visits generalizing slots with
  | nil => rfl
  | cons v rest ih =>
    show post _ _ ((slots.map (-·)).modify v.slot (· + -v.value)) = _
    rw [modify_opposite]
    exact ih _

theorem post_one_opposite (visits : List Visit) (slots : Array UInt32) :
    post (fun _ => 1) (visits.map Visit.opposite) slots = post (fun _ => 1) visits slots := by
  unfold post
  rw [List.foldl_map]
  rfl

/-- Two tallies of one extent with opposite sums and the same counts. -/
structure Opposes (t u : Tally) : Prop where
  extent : u.extent = t.extent
  sums : u.sums = t.sums.map (-·)
  counts : u.counts = t.counts

theorem opposes_new (e : Extent) : (new e).Opposes (new e) where
  extent := rfl
  sums := by
    show Array.replicate e.area 0 = (Array.replicate e.area 0).map (-·)
    rw [Array.map_replicate]
    rfl
  counts := rfl

/-- Opposite visits are added to opposite sums. -/
theorem Opposes.add {t u : Tally} (h : t.Opposes u) (v : Visit) (ht : v.slot < t.extent.area)
    (hu : v.opposite.slot < u.extent.area) : (t.add v ht).Opposes (u.add v.opposite hu) where
  extent := by rw [extent_add, extent_add, h.extent]
  sums := by
    rw [sums_add, sums_add, h.sums]
    exact modify_opposite t.sums v.slot v.value
  counts := by
    rw [counts_add, counts_add, h.counts]
    rfl

theorem Opposes.absorb {t u : Tally} (h : t.Opposes u) (visits : List Visit) :
    (t.absorb visits).1.Opposes (u.absorb (visits.map Visit.opposite)).1 ∧
      (u.absorb (visits.map Visit.opposite)).2 = (t.absorb visits).2 := by
  induction visits generalizing t u with
  | nil => exact ⟨h, rfl⟩
  | cons v rest ih =>
    have slot : v.opposite.slot < u.extent.area ↔ v.slot < t.extent.area := by
      rw [h.extent]
      rfl
    unfold Tally.absorb
    rw [List.map_cons]
    dsimp only
    by_cases named : v.slot < t.extent.area
    · rw [dif_pos named, dif_pos (slot.mpr named)]
      exact ih (h.add v named (slot.mpr named))
    · rw [dif_neg named, dif_neg (mt slot.mp named)]
      exact ⟨h, rfl⟩

/-- What holds some visits opposes what holds the opposite ones. -/
theorem Holds.opposes {t u : Tally} {e : Extent} {visits : List Visit} (ht : t.Holds e visits)
    (hu : u.Holds e (visits.map Visit.opposite)) : t.Opposes u where
  extent := hu.extent.trans ht.extent.symm
  sums := by
    rw [hu.sums, ht.sums, ← post_opposite, ← (opposes_new e).sums]
  counts := by
    rw [hu.counts, ht.counts, post_one_opposite]

end Tally

namespace Integration

open Course

/-! ## 5. Whoever integrates -/

/-- What an integration answers before an observer, and what it answers on the opposite field. -/
structure Mirrors {σ ρ : Type} (a b : (Tally × ρ) × σ) : Prop where
  tally : a.1.1.Opposes b.1.1
  ending : b.1.2 = a.1.2
  observer : b.2 = a.2

section InOrder

variable {slopes : Slopes} {launch : Launch} (small : 255 * launch.maxSteps < 2 ^ 31)
variable {σ : Type} (o : Observer σ)
include small

/-- Before every observer, rays over opposite fields are withdrawn together, and oppose each other
    up to there. -/
theorem marchRays_mirrors (heading : Heading) (starts : List Point) {t u : Tally}
    (h : t.Opposes u) (s : σ) :
    Mirrors ((marchRays slopes launch heading.step starts t).follow o s)
      ((marchRays slopes.opposite launch heading.step starts u).follow o s) := by
  induction starts generalizing t u with
  | nil => exact ⟨h, rfl, rfl⟩
  | cons start rest ih =>
    unfold marchRays
    simp only [follow]
    split
    · exact ⟨h, rfl, rfl⟩
    · split
      · rw [visits_opposite small heading start]
        obtain ⟨opposes, whole⟩ := h.absorb (Ray.visits slopes launch heading.step start)
        generalize t.absorb _ = a at opposes whole ⊢
        generalize u.absorb _ = b at opposes whole ⊢
        obtain ⟨t', named⟩ := a
        obtain ⟨u', named'⟩ := b
        obtain rfl : named' = named := whole
        cases named' with
        | true => exact ih opposes
        | false => exact ⟨opposes, rfl, rfl⟩
      · exact ih h

/-- So are headings one after the other. -/
theorem inOrder_mirrors (headings : List Heading) {t u : Tally} (h : t.Opposes u) (s : σ) :
    Mirrors ((inOrder slopes launch headings t).follow o s)
      ((inOrder slopes.opposite launch headings u).follow o s) := by
  induction headings generalizing t u s with
  | nil => exact ⟨h, rfl, rfl⟩
  | cons heading rest ih =>
    have first : Mirrors
        ((marchRays slopes launch heading.opposite.step launch.points t).follow o s)
        ((marchRays slopes.opposite launch heading.opposite.step launch.points u).follow o s) :=
      marchRays_mirrors small o heading.opposite launch.points h s
    unfold inOrder marchHeading
    rw [follow_bind, follow_bind]
    generalize follow o (marchRays slopes launch heading.opposite.step launch.points t) s = a
      at first ⊢
    generalize follow o (marchRays slopes.opposite launch heading.opposite.step launch.points u) s
      = b at first ⊢
    obtain ⟨⟨t', ending⟩, s'⟩ := a
    obtain ⟨⟨u', ending'⟩, s''⟩ := b
    obtain ⟨opposes, same, same'⟩ := first
    obtain rfl : ending' = ending := same
    obtain rfl : s'' = s' := same'
    cases ending' with
    | complete =>
      have later := ih opposes s''
      dsimp only
      rw [follow_bind, follow_bind]
      exact ⟨later.tally, congrArg (fun e => (e.1 + 1, e.2)) later.ending, later.observer⟩
    | withdrawn => exact ⟨opposes, rfl, rfl⟩
    | strayed => exact ⟨opposes, rfl, rfl⟩

end InOrder

end Integration

namespace Crew

open Integration

/-- A crew of as many workers as are asked for has integrated a sweep and left a tally, whoever took
    which step when. The generation of its token was advanced fewer than `2 ^ 64` times. -/
inductive Integrates (slopes : Slopes) (sweep : Sweep) (launch : Launch) : Tally → Prop where
  | returned {workers : ℕ} {issued : Generations} {gen : Generation} {before : ℕ}
      {trace : List Move} {s : State} {stats : Stats} (threading : Threading)
      (processors : Processors)
      (count : workerCount threading processors.count sweep.length = .ok workers)
      (run :
        let c : Crew :=
          { slopes, sweep, launch, workers, token := issued.issue gen
            shortage? := processors.shortage? workers }
        Run c (fun _ => True) (c.start (issued.advanceBy gen before)) trace s)
      (few : before + cancels trace < 2 ^ 64) (hp : s.phase = .returned (.completed stats)) :
      Integrates slopes sweep launch s.tally

theorem Integrates.holds {slopes : Slopes} {sweep : Sweep} {launch : Launch} {t : Tally}
    (h : Integrates slopes sweep launch t) :
    t.Holds slopes.extent (sweep.headings.flatMap (headingVisits slopes launch)) := by
  cases h with
  | @returned workers issued gen before trace s stats threading processors count run few hp =>
    obtain ⟨workers', count', zero⟩ := exists_workerCount (threads_ne_of_workerCount count)
      processors.count sweep.length
    obtain rfl : workers = workers' := Except.ok.inj (count.symm.trans count')
    have nobody : workers = 0 → sweep.headings = [] :=
      fun hn => List.length_eq_zero_iff.mp (zero.mp hn)
    exact (Run.completes_of_few rfl run nobody few hp).tally

end Crew

namespace Integration

open Course

/-- The visits of a sweep over the opposite field. -/
theorem sweepVisits_opposite {slopes : Slopes} {launch : Launch}
    (small : 255 * launch.maxSteps < 2 ^ 31) (sweep : Sweep) :
    sweep.headings.flatMap (headingVisits slopes.opposite launch)
      = (sweep.headings.flatMap (headingVisits slopes launch)).map Visit.opposite := by
  rw [List.map_flatMap]
  exact List.flatMap_congr fun heading _ => headingVisits_opposite small heading

/-- **Opposite slopes give opposite sums and the same counts**, if no running integral can pass the
    range of a word. Headings one after the other do so before every observer, also where they are
    withdrawn; so does the task, where the machine starts its workers; and so do any two crews that
    complete the integration, whoever took which step when. -/
theorem opposite_slopes_oppose_sums (slopes : Slopes) (launch : Launch)
    (small : 255 * launch.maxSteps < 2 ^ 31) :
    (∀ (σ : Type) (o : Observer σ) (headings : List Heading) (s : σ),
      Mirrors ((inOrder slopes launch headings (.new slopes.extent)).follow o s)
        ((inOrder slopes.opposite launch headings (.new slopes.opposite.extent)).follow o s)) ∧
    (∀ (sweep : Sweep) (threading : Threading) (processors : Processors),
      threading.threads ≠ some 0 →
      (∀ reason, ¬ Lacks threading processors sweep.length reason) →
      ∃ r r', (task slopes sweep launch threading processors).result = .ok (some r) ∧
        (task slopes.opposite sweep launch threading processors).result = .ok (some r') ∧
        r.tally.Opposes r'.tally) ∧
    ∀ (sweep : Sweep) (t u : Tally), Crew.Integrates slopes sweep launch t →
      Crew.Integrates slopes.opposite sweep launch u → t.Opposes u := by
  refine ⟨fun σ o headings s => ?_, fun sweep threading processors asked manned => ?_,
    fun sweep t u ht hu => ?_⟩
  · exact inOrder_mirrors small o headings (Tally.opposes_new slopes.extent) s
  · obtain ⟨r, done, complete⟩ := result_task slopes sweep launch asked manned
    obtain ⟨r', done', complete'⟩ := result_task slopes.opposite sweep launch asked manned
    have opposite := complete'.tally
    rw [sweepVisits_opposite small] at opposite
    exact ⟨r, r', done, done', complete.tally.opposes opposite⟩
  · have opposite := hu.holds
    rw [sweepVisits_opposite small] at opposite
    exact ht.holds.opposes opposite

/-- The mould of a row of two pixels has the opposite sums, and the same counts. -/
theorem ridge_opposes_sums :
    let launch : Launch := .plan ⟨2, 1⟩ .rectangular
    let marched (slopes : Slopes) : Tally :=
      ((inOrder slopes launch Crew.pair.sweep.headings (.new slopes.extent)).follow patient ()).1.1
    255 * launch.maxSteps < 2 ^ 31 ∧ (marched Crew.ridge.opposite).sums = #[1, 110] ∧
      (marched Crew.ridge.opposite).counts = #[3, 3] := by
  intro launch marched
  have steps : launch.maxSteps = 11 := by decide +kernel
  have small : 255 * launch.maxSteps < 2 ^ 31 := by
    rw [steps]
    norm_num
  have opposes : (marched Crew.ridge).Opposes (marched Crew.ridge.opposite) :=
    ((opposite_slopes_oppose_sums Crew.ridge launch small).1 Unit patient
      Crew.pair.sweep.headings ()).tally
  refine ⟨small, ?_, ?_⟩
  · rw [opposes.sums]
    decide +kernel
  · rw [opposes.counts]
    decide +kernel

end Integration

end Relief
