import Relief.Proofs.Depth.InTurn

/-!
# What rays keep of a tally

What is known of a tally after so many rays, and kept by one more of them, is known of what an
integration leaves: it marches each ray at most once, before whatever observer.

* `Kept`: what one ray keeps of a tally;
* `Kept.marchRays`, `Kept.marchHeading`, `Kept.inOrder`: so do the rays of a heading, and headings one
  after the other;
* `Kept.work`, `Kept.workAll`, `Kept.task`: and **so does the whole integration**.
-/

namespace Relief.Integration

open Course

/-- Something that is known of a tally after so many rays, and that one more of them keeps. -/
structure Kept (slopes : Slopes) (launch : Launch) (known : ℕ → Tally → Prop) : Prop where
  mono : ∀ {m n : ℕ} {t : Tally}, m ≤ n → known m t → known n t
  ray : ∀ {n : ℕ} {t : Tally} (heading : Heading) (start : Point), known n t →
    known (n + 1) (t.absorb (Ray.visits slopes launch heading.step start)).1

namespace Kept

variable {slopes : Slopes} {launch : Launch} {known : ℕ → Tally → Prop}
  (h : Kept slopes launch known) {σ : Type} (o : Observer σ) {n : ℕ} {t : Tally}
include h

theorem marchRays (heading : Heading) (starts : List Point) (before : known n t) (s : σ) :
    known (n + starts.length)
      ((marchRays slopes launch heading.step starts t).follow o s).1.1 := by
  induction starts generalizing n t s with
  | nil => exact before
  | cons start rest ih =>
    have one := h.mono (Nat.le_succ n) before
    have all {m : ℕ} {t : Tally} (ht : known m t) (le : m ≤ n + (start :: rest).length) :
        known (n + (start :: rest).length) t := h.mono le ht
    have next : n + 1 + rest.length = n + (start :: rest).length := by
      rw [List.length_cons]
      omega
    rw [Integration.marchRays, follow]
    cases o.answer s with
    | true => exact all before (Nat.le_add_right _ _)
    | false =>
      rw [if_neg Bool.false_ne_true]
      split
      · have after := h.ray heading start before
        split <;> rename_i t' absorbed <;> rw [absorbed] at after
        · exact next ▸ ih after s
        · exact all after (by omega)
      · exact next ▸ ih one s

theorem marchHeading (heading : Heading) (before : known n t) (s : σ) :
    known (n + launch.points.length)
      ((marchHeading slopes launch heading t).follow o s).1.1 :=
  h.marchRays o heading.opposite launch.points before s

omit h in
/-- The rays of one more heading. -/
theorem rays_cons (launch : Launch) (n : ℕ) (heading : Heading) (rest : List Heading) :
    n + launch.points.length + rest.length * launch.points.length
      = n + (heading :: rest).length * launch.points.length := by
  rw [List.length_cons, Nat.succ_mul]
  omega

/-- **Headings one after the other keep it**, from any tally on. -/
theorem inOrder (headings : List Heading) (before : known n t) (s : σ) :
    known (n + headings.length * launch.points.length)
      ((inOrder slopes launch headings t).follow o s).1.1 := by
  induction headings generalizing n t s with
  | nil => exact h.mono (Nat.le_add_right _ _) before
  | cons heading rest ih =>
    have first := h.marchHeading o heading before s
    rw [← rays_cons launch, Integration.inOrder, follow_bind]
    generalize (Integration.marchHeading slopes launch heading t).follow o s = marched at first ⊢
    obtain ⟨⟨t', ending⟩, s'⟩ := marched
    cases ending with
    | complete =>
      dsimp only
      rw [follow_bind]
      exact ih first s'
    | _ => exact h.mono (Nat.le_add_right _ _) first

omit h in
theorem tally_lookUp (p : Progress) (s : σ) : (p.lookUp.follow o s).1.tally = p.tally := by
  unfold Progress.lookUp
  split
  · rfl
  · rw [follow]
    split <;> rfl

theorem work (headings : List Heading) (completed : ℕ) {p : Progress} (before : known n p.tally)
    (s : σ) :
    known (n + headings.length * launch.points.length)
      ((work slopes launch headings completed p).follow o s).1.2.tally := by
  induction headings generalizing n completed p s with
  | nil => exact h.mono (Nat.le_add_right _ _) before
  | cons heading rest ih =>
    obtain ⟨tally, integrated, aborted⟩ := p
    have first := h.marchHeading o heading before s
    rw [← rays_cons launch, Integration.work]
    split
    · exact h.mono (by omega) before
    · rw [follow_bind]
      generalize (Integration.marchHeading slopes launch heading tally).follow o s = marched
        at first ⊢
      obtain ⟨⟨t', ending⟩, s'⟩ := marched
      cases ending with
      | complete =>
        have same := tally_lookUp o (Progress.mk t' (integrated + 1) aborted) s'
        dsimp only
        rw [follow_bind]
        exact ih (completed + 1) (same ▸ first) _
      | _ => exact h.mono (Nat.le_add_right _ _) first

theorem workAll (worker : ℕ) (shares : List (List Heading)) {p : Progress}
    (before : known n p.tally) (s : σ) :
    known (n + (shares.map List.length).sum * launch.points.length)
      ((workAll slopes launch worker shares p).follow o s).1.tally := by
  induction shares generalizing n worker p s with
  | nil => exact h.mono (Nat.le_add_right _ _) before
  | cons share rest ih =>
    have first := h.work o share 0 before s
    rw [List.map_cons, List.sum_cons, Nat.add_mul, ← Nat.add_assoc, Integration.workAll, follow_bind]
    generalize (Integration.work slopes launch share 0 p).follow o s = worked at first ⊢
    obtain ⟨⟨completed, p'⟩, s'⟩ := worked
    have same := tally_lookUp o p' (o.note s' (.workerFinished worker completed))
    dsimp only [follow]
    rw [follow_bind]
    exact ih (worker + 1) (same ▸ first) _

omit h in
theorem tally_conclude {stats : Stats} {p : Progress} {s : σ} {r : Integration}
    (result : ((conclude stats p).follow o s).1 = .ok (some r)) : r.tally = p.tally := by
  unfold conclude at result
  split at result
  · cases result
  · cases hs : o.answer s with
    | true =>
      rw [Task.follow_goOn_superseded _ hs] at result
      cases result
    | false =>
      rw [Task.follow_goOn_calm _ hs] at result
      cases result
      rfl

/-- **So does the whole integration**, if it has a result. -/
theorem task {sweep : Sweep} {threading : Threading} {processors : Processors} {s : σ}
    {r : Integration} (fresh : known 0 (.new slopes.extent))
    (result : ((task slopes sweep launch threading processors).follow o s).1 = .ok (some r)) :
    known (sweep.length * launch.points.length) r.tally := by
  rw [follow_task_eq, conduct] at result
  generalize o.note s (.integrationBegins sweep.length slopes.extent) = s₁ at result
  dsimp only at result
  split at result
  · cases result
  · cases result
    exact h.mono (Nat.zero_le _) fresh
  · rename_i workers _ _
    cases hs : o.answer s₁ with
    | true =>
      rw [follow_coordinate_superseded slopes launch o sweep _ workers hs] at result
      cases result
    | false =>
      cases short : processors.shortage? workers with
      | some reason =>
        rw [short, follow_coordinate_short slopes launch o sweep reason workers hs] at result
        cases result
      | none =>
        rw [short, follow_coordinate_calm slopes launch o sweep workers hs] at result
        rw [tally_conclude o result]
        have marched := h.workAll o 0 (sweep.deal workers) (p := .start slopes.extent) fresh
        rw [sweep.sum_length_deal, Nat.zero_add] at marched
        exact marched _

end Kept

end Relief.Integration
