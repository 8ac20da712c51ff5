import Relief.Proofs.Depth.Additions
import Relief.Proofs.Depth.Keeping
import Relief.Proofs.Depth.Levelling
import Relief.Proofs.Depth.Overflow

/-!
# Unknown pixels

Nothing comes of what a field holds where it says nothing about the surface: neither at such a pixel
nor at any that a ray comes to after it.

* `Slopes.Agree`: the same pixels of two fields are known, and with the same slopes;
* `Ray.visits_agree`: **rays over such fields are the same**, and so are `Integration.inOrder_agree`
  and `Integration.task_agree`;
* `Slopes.IsBlank`: no pixel is known; `Ray.value_of_isBlank`: then all running integrals are zero;
* `Integration.inOrder_keeps`: what every ray keeps of a tally, all headings keep;
* `Levels.pixels_of_isLevel`: a tally in which all sums are zero makes a middle grey map;
* `unknown_pixels_are_invisible`: **unknown pixels do not show in a tally**.
-/

namespace Relief

/-! ## 1. Fields that agree -/

namespace Slopes

variable {slopes others : Slopes} {p q : Pixel}

/-- The same pixels of two fields are known, and with the same slopes. What the fields hold at the
    others, and what besides slopes they hold at these, may be anything. -/
structure Agree (slopes others : Slopes) : Prop where
  extent : others.extent = slopes.extent
  unknown_iff (slot : ℕ) (p q : Pixel) : slopes.image.pixels[slot]? = some p →
    others.image.pixels[slot]? = some q → (q.blue = 0 ↔ p.blue = 0)
  known (slot : ℕ) (p q : Pixel) : slopes.image.pixels[slot]? = some p →
    others.image.pixels[slot]? = some q → p.blue ≠ 0 → q.red = p.red ∧ q.green = p.green

theorem Agree.refl (slopes : Slopes) : slopes.Agree slopes where
  extent := rfl
  unknown_iff slot p q hp hq := by
    cases hp.symm.trans hq
    exact Iff.rfl
  known slot p q hp hq _ := by
    cases hp.symm.trans hq
    exact ⟨rfl, rfl⟩

/-- No pixel is known. -/
def IsBlank (slopes : Slopes) : Prop :=
  ∀ (slot : ℕ) (p : Pixel), slopes.image.pixels[slot]? = some p → p.blue = 0

theorem isKnown_eq_false (h : p.blue = 0) : isKnown p = false := by
  rw [isKnown, h]
  rfl

theorem climb_of_unknown (h : p.blue = 0) (dx dy : Float) : climb p dx dy = 0 := by
  rw [climb, isKnown_eq_false h, if_neg Bool.false_ne_true]

/-- **A step climbs as much over the one field as over the other.** -/
theorem Agree.climb (h : slopes.Agree others) {slot : ℕ} (hp : slopes.image.pixels[slot]? = some p)
    (hq : others.image.pixels[slot]? = some q) (dx dy : Float) : climb q dx dy = climb p dx dy := by
  by_cases unknown : p.blue = 0
  · rw [climb_of_unknown unknown, climb_of_unknown ((h.unknown_iff slot p q hp hq).mpr unknown)]
  · obtain ⟨red, green⟩ := h.known slot p q hp hq unknown
    have known : isKnown q = isKnown p := by
      unfold isKnown
      rw [bne_iff_ne.mpr unknown,
        bne_iff_ne.mpr fun blank => unknown ((h.unknown_iff slot p q hp hq).mp blank)]
    rw [Slopes.climb, Slopes.climb, known, red, green]

theorem Agree.size (h : slopes.Agree others) :
    others.image.pixels.size = slopes.image.pixels.size := by
  have same : others.image.toExtent = slopes.image.toExtent := h.extent
  rw [others.image.size_pixels, slopes.image.size_pixels, same]

end Slopes

/-! ## 2. Rays -/

namespace Ray

variable {slopes others : Slopes}

/-- The rest of a ray is the same over both, whatever its running integral is by now. -/
theorem march_agree (h : slopes.Agree others) (launch : Launch) (step : Point) (fuel : ℕ)
    (position : Point) (last : Option Cell) (integral : Float) :
    march others launch step fuel position last integral
      = march slopes launch step fuel position last integral := by
  induction fuel generalizing position last integral with
  | zero => rfl
  | succ fuel ih =>
    unfold march
    simp only [ih, h.extent]
    split
    · split
      · rfl
      · cases slopes.extent.slot? _ _ with
        | none => rfl
        | some slot =>
          dsimp only
          by_cases hs : slot < slopes.image.pixels.size
          · have hp := Array.getElem?_eq_getElem hs
            have hq := Array.getElem?_eq_getElem (h.size ▸ hs)
            rw [hp, hq]
            dsimp only
            rw [h.climb hp hq]
          · have beyond := not_lt.mp hs
            rw [Array.getElem?_eq_none beyond, Array.getElem?_eq_none (h.size ▸ beyond)]
    · rfl

/-- **A ray visits the same pixels with the same integrals over both.** -/
theorem visits_agree (h : slopes.Agree others) (launch : Launch) (step start : Point) :
    visits others launch step start = visits slopes launch step start :=
  march_agree h launch step launch.maxSteps start none 0

theorem quantize_zero : quantize 0 = 0 := by
  decide +kernel

theorem sub_zero : (0 : Float) - 0 = 0 := by
  decide +kernel

/-- **Over a blank field, a running integral stays zero.** -/
theorem value_of_isBlank (h : slopes.IsBlank) {launch : Launch} {step : Point} {fuel : ℕ}
    {position : Point} {last : Option Cell} {v : Visit}
    (hv : v ∈ march slopes launch step fuel position last 0) : v.value = 0 := by
  induction fuel generalizing position last with
  | zero => cases hv
  | succ fuel ih =>
    unfold march at hv
    dsimp only at hv
    split at hv
    · split at hv
      · exact ih hv
      · split at hv
        · exact ih hv
        · split at hv
          · exact ih hv
          · rename_i p hp
            rw [Slopes.climb_of_unknown (h _ p hp), sub_zero] at hv
            rcases List.mem_cons.mp hv with rfl | later
            · exact quantize_zero
            · exact ih later
    · cases hv

end Ray

/-! ## 3. Integration -/

namespace Integration

open Course

section Agree

variable {slopes others : Slopes} (h : slopes.Agree others) (launch : Launch)
include h

theorem marchRays_agree (step : Point) (starts : List Point) (t : Tally) :
    marchRays others launch step starts t = marchRays slopes launch step starts t := by
  induction starts generalizing t with
  | nil => rfl
  | cons start rest ih =>
    unfold marchRays
    simp only [ih, Ray.visits_agree h]

theorem marchHeading_agree (heading : Heading) (t : Tally) :
    marchHeading others launch heading t = marchHeading slopes launch heading t :=
  marchRays_agree h launch _ _ t

/-- **Headings one after the other are the same over both**, from any tally on. -/
theorem inOrder_agree (headings : List Heading) (t : Tally) :
    inOrder others launch headings t = inOrder slopes launch headings t := by
  induction headings generalizing t with
  | nil => rfl
  | cons heading rest ih =>
    unfold inOrder
    simp only [ih, marchHeading_agree h]

theorem work_agree (headings : List Heading) (completed : ℕ) (p : Progress) :
    work others launch headings completed p = work slopes launch headings completed p := by
  induction headings generalizing completed p with
  | nil => rfl
  | cons heading rest ih =>
    have later (completed : ℕ) : work others launch rest completed
        = work slopes launch rest completed := funext (ih completed)
    unfold work
    simp only [later, marchHeading_agree h]

theorem workAll_agree (worker : ℕ) (shares : List (List Heading)) (p : Progress) :
    workAll others launch worker shares p = workAll slopes launch worker shares p := by
  induction shares generalizing worker p with
  | nil => rfl
  | cons share rest ih =>
    have later (worker : ℕ) : workAll others launch worker rest
        = workAll slopes launch worker rest := funext (ih worker)
    unfold workAll
    simp only [later, work_agree h]

theorem conduct_agree (sweep : Sweep) (threading : Threading) (processors : Processors) :
    conduct others sweep launch threading processors
      = conduct slopes sweep launch threading processors := by
  have coordinated (shortage? : Option String) (workers : ℕ) :
      coordinate others sweep launch shortage? workers
        = coordinate slopes sweep launch shortage? workers := by
    unfold coordinate distribute
    simp only [workAll_agree h, h.extent]
  unfold conduct
  split
  · rfl
  · rw [h.extent]
  · exact coordinated _ _

/-- **So is the whole integration**, with all that it reports. -/
theorem task_agree (sweep : Sweep) (threading : Threading) (processors : Processors) :
    task others sweep launch threading processors
      = task slopes sweep launch threading processors := by
  unfold task
  rw [conduct_agree h, h.extent]

end Agree

/-- **What every ray keeps of a tally, all headings keep**, before every observer. -/
theorem inOrder_keeps {slopes : Slopes} {launch : Launch} {kept : Tally → Prop}
    (ray : ∀ t step start, kept t → kept (t.absorb (Ray.visits slopes launch step start)).1)
    {σ : Type} (o : Observer σ) (headings : List Heading) {t : Tally} (h : kept t) (s : σ) :
    kept ((inOrder slopes launch headings t).follow o s).1.1 := by
  have keeps : Kept slopes launch fun _ => kept := ⟨fun _ => id, fun heading start => ray _ _ start⟩
  exact keeps.inOrder o headings h (n := 0) s

end Integration

/-! ## 4. Tallies of zeros -/

namespace Tally

variable {t : Tally}

theorem sumAt_new (e : Extent) (slot : ℕ) : (new e).sumAt slot = 0 := by
  unfold sumAt new
  rw [Array.getElem?_replicate]
  split <;> rfl

/-- A visit adds to the sum of its slot. -/
theorem sumAt_add (v : Visit) (h : v.slot < t.extent.area) (slot : ℕ) :
    (t.add v h).sumAt slot = t.sumAt slot + if v.slot = slot then v.value else 0 := by
  unfold sumAt
  rw [sums_add, Array.getElem?_modify]
  by_cases here : v.slot = slot
  · have hs : slot < t.sums.size := by rw [t.size_sums, ← here]; exact h
    rw [if_pos here, if_pos here, Array.getElem?_eq_getElem hs]
    rfl
  · rw [if_neg here, if_neg here, Int32.add_zero]

/-- All sums are zero. -/
def IsLevel (t : Tally) : Prop :=
  ∀ slot, t.sumAt slot = 0

theorem IsLevel.sums (h : t.IsLevel) : ∀ sum ∈ t.sums, sum = 0 := by
  intro sum mem
  obtain ⟨slot, here⟩ := Array.mem_iff_getElem?.mp mem
  have level := h slot
  rwa [sumAt, here, Option.getD_some] at level

/-- **Visits with nothing leave all sums zero**, and nothing overflows. -/
theorem IsLevel.absorb (h : t.IsLevel) {visits : List Visit} (nothing : ∀ v ∈ visits, v.value = 0) :
    (t.absorb visits).1.IsLevel ∧ (t.absorb visits).1.overflowed = t.overflowed := by
  induction visits generalizing t with
  | nil => exact ⟨h, rfl⟩
  | cons v rest ih =>
    obtain ⟨first, others⟩ := List.forall_mem_cons.mp nothing
    unfold Tally.absorb
    split
    · rename_i hv
      have level : (t.add v hv).IsLevel := fun slot => by
        rw [sumAt_add, h, first, ite_self, Int32.add_zero]
      have calm : t.wraps v = false := by
        have here : t.sums[v.slot]?.getD 0 = 0 := h v.slot
        rw [wraps, here, first]
        rfl
      obtain ⟨level', same⟩ := ih level others
      rw [overflowed_add, calm, Bool.or_false] at same
      exact ⟨level', same⟩
    · exact ⟨h, rfl⟩

end Tally

namespace Levels

variable {t : Tally}

/-- **A tally in which all sums are zero makes a middle grey map.** -/
theorem pixels_of_isLevel (h : t.IsLevel) :
    (course t).result.toExtent = t.extent ∧ ∀ p ∈ (course t).result.pixels, p = .grey flat := by
  have nothing (slot : ℕ) : worthAt t slot = 0 := by
    rw [worthAt, h, worth, Int32.toInt_zero, Int.cast_zero, zero_mul, Double.rounded_zero, zero_div,
      Double.rounded_zero]
  rw [result_course]
  exact ⟨rfl, forall_image_flat_iff.mpr fun i _ j _ => (nothing i).trans (nothing j).symm⟩

end Levels

/-! ## 5. Whatever unknown pixels hold -/

/-- **Unknown pixels do not show in a tally.** Over two fields with the same unknown pixels and the
    same slopes at the others, whatever else they hold, all headings do the same to every tally, and
    the whole integration is the same. And where nothing is known, all sums stay zero before every
    observer, nothing overflows, and the depth map is a middle grey. -/
theorem unknown_pixels_are_invisible (slopes others : Slopes) (h : slopes.Agree others) :
    (∀ (launch : Launch) (headings : List Heading) (t : Tally),
      Integration.inOrder others launch headings t
        = Integration.inOrder slopes launch headings t) ∧
    (∀ (launch : Launch) (sweep : Sweep) (threading : Threading) (processors : Processors),
      Integration.task others sweep launch threading processors
        = Integration.task slopes sweep launch threading processors) ∧
    (slopes.IsBlank → ∀ (launch : Launch) (headings : List Heading) {σ : Type}
      (o : Course.Observer σ) (s : σ) (fresh : Extent),
      let t := ((Integration.inOrder slopes launch headings (.new fresh)).follow o s).1.1
      t.extent = fresh ∧ (∀ sum ∈ t.sums, sum = 0) ∧ t.overflowed = false ∧
        (Levels.course t).result.toExtent = fresh ∧
        ∀ p ∈ (Levels.course t).result.pixels, p = .grey 128) := by
  refine ⟨fun launch => Integration.inOrder_agree h launch,
    fun launch => Integration.task_agree h launch, fun blank launch headings σ o s fresh => ?_⟩
  intro t
  let kept (t : Tally) : Prop := t.extent = fresh ∧ t.IsLevel ∧ t.overflowed = false
  have ray (t : Tally) (step start : Point) (h : kept t) :
      kept (t.absorb (Ray.visits slopes launch step start)).1 := by
    obtain ⟨extent, level, calm⟩ := h
    obtain ⟨level', same⟩ := level.absorb fun v hv => Ray.value_of_isBlank blank hv
    exact ⟨(Tally.extent_absorb t _).trans extent, level', same.trans calm⟩
  obtain ⟨extent, level, calm⟩ : kept t :=
    Integration.inOrder_keeps ray o headings ⟨rfl, Tally.sumAt_new fresh, rfl⟩ s
  obtain ⟨same, flat⟩ := Levels.pixels_of_isLevel level
  exact ⟨extent, level.sums, calm, same.trans extent, flat⟩

/-- A field of two pixels, the first of them unknown. -/
def murky : Slopes where
  image :=
    { width := 2
      height := 1
      pixels := #[⟨9, 200, 0, 255⟩, ⟨130, 127, 255, 255⟩]
      size_pixels := rfl }

/-- It is unknown here too, and everything else that is no slope is different. -/
def cloudy : Slopes where
  image :=
    { width := 2
      height := 1
      pixels := #[⟨77, 3, 0, 1⟩, ⟨130, 127, 1, 0⟩]
      size_pixels := rfl }

/-- A field of two pixels that says nothing. -/
def foggy : Slopes where
  image :=
    { width := 2
      height := 1
      pixels := #[⟨9, 200, 0, 255⟩, ⟨255, 0, 0, 7⟩]
      size_pixels := rfl }

/-- The two headings along the rows do the same over both fields, and leave nothing over the
    third. -/
theorem fog_is_invisible :
    let headings := [Heading.ofDegrees 0, Heading.ofDegrees 180]
    let launch := Launch.plan ⟨2, 1⟩ .rectangular
    murky.Agree cloudy ∧
    Integration.inOrder cloudy launch headings (.new ⟨2, 1⟩)
      = Integration.inOrder murky launch headings (.new ⟨2, 1⟩) ∧
    foggy.IsBlank ∧
    ∀ sum ∈ ((Integration.inOrder foggy launch headings (.new ⟨2, 1⟩)).follow Course.patient
      ()).1.1.sums, sum = 0 := by
  have agree : murky.Agree cloudy := by
    refine ⟨rfl, fun slot p q hp hq => ?_, fun slot p q hp hq => ?_⟩ <;>
      match slot with
      | 0 | 1 => cases hp; cases hq; decide
      | _ + 2 => cases hp
  have blank : foggy.IsBlank := fun slot p hp =>
    match slot with
    | 0 | 1 => by cases hp; rfl
    | _ + 2 => by cases hp
  obtain ⟨same, -⟩ := unknown_pixels_are_invisible murky cloudy agree
  obtain ⟨-, -, nothing⟩ := unknown_pixels_are_invisible foggy foggy (.refl foggy)
  obtain ⟨-, zero, -⟩ := nothing blank (.plan ⟨2, 1⟩ .rectangular)
    [Heading.ofDegrees 0, Heading.ofDegrees 180] Course.patient () ⟨2, 1⟩
  exact ⟨agree, same _ _ _, blank, zero⟩

end Relief
