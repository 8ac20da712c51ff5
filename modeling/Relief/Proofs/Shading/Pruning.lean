import Relief.Proofs.Shading.Evaluation

/-!
# Leaving out what an output does not need

A program keeps the instructions that its output depends on, and numbers the textures that they
sample.

* `markLive_closed`: **what a kept instruction reads is kept**;
* `values?_filter`: evaluating some instructions that read nothing else gives the values that all
  have;
* `renumber_spec`: renumbering goes through the textures in the order of their first use;
* `values?_rebinds`: **under textures bound so, the values stay**;
* `WellTyped.lower`: **a program of well-typed instructions is well typed**.
-/

namespace Relief.Shading

/-! ## 1. Marks -/

theorem size_markAll (marks : Array Bool) (ids : List Nat) :
    (markAll marks ids).size = marks.size := by
  induction ids generalizing marks with
  | nil => rfl
  | cons id rest ih =>
    have step : markAll marks (id :: rest) = markAll (marks.setIfInBounds id true) rest := rfl
    rw [step, ih, Array.size_setIfInBounds]

/-- What is marked after marking some is what was marked, or is one of them. -/
theorem isMarked_markAll (marks : Array Bool) (ids : List Nat) (id : Nat) :
    isMarked (markAll marks ids) id = true ↔
      isMarked marks id = true ∨ (id ∈ ids ∧ id < marks.size) := by
  induction ids generalizing marks with
  | nil => simp [markAll]
  | cons first rest ih =>
    have step : markAll marks (first :: rest) = markAll (marks.setIfInBounds first true) rest := rfl
    have set : isMarked (marks.setIfInBounds first true) id = true ↔
        isMarked marks id = true ∨ (id = first ∧ id < marks.size) := by
      unfold isMarked
      rw [Array.getElem?_setIfInBounds]
      by_cases he : first = id
      · subst he
        by_cases hs : first < marks.size
        · simp [hs]
        · simp [hs]
      · rw [if_neg he]
        simp [Ne.symm he]
    rw [step, ih, set, Array.size_setIfInBounds, List.mem_cons]
    tauto

/-- The marks after instructions have handed them on to what they read, the last one first. -/
def markLive (L : List Instruction) (marks : Array Bool) : Array Bool :=
  L.foldr
    (fun i marks => if isMarked marks i.id then markAll marks i.term.operands else marks) marks

theorem live_eq (L : List Instruction) (output : Nat) :
    live L output = markLive L (markAll (Array.replicate L.length false) [output]) := rfl

/-- What one instruction does to the marks. -/
theorem markLive_cons (i : Instruction) (rest : List Instruction) (marks : Array Bool) :
    markLive (i :: rest) marks =
      if isMarked (markLive rest marks) i.id then markAll (markLive rest marks) i.term.operands
      else markLive rest marks := rfl

theorem size_markLive (L : List Instruction) (marks : Array Bool) :
    (markLive L marks).size = marks.size := by
  induction L with
  | nil => rfl
  | cons i rest ih =>
    rw [markLive_cons]
    split
    · rw [size_markAll, ih]
    · exact ih

/-- Marks are not taken back. -/
theorem markLive_mono {L : List Instruction} {marks : Array Bool} {id : Nat}
    (h : isMarked marks id = true) : isMarked (markLive L marks) id = true := by
  induction L with
  | nil => exact h
  | cons i rest ih =>
    rw [markLive_cons]
    split
    · exact (isMarked_markAll _ _ _).mpr (.inl ih)
    · exact ih

/-- An instruction marks nothing but what it reads. -/
theorem isMarked_markLive_cons {i : Instruction} {rest : List Instruction} {marks : Array Bool}
    {id : Nat} (h : isMarked (markLive (i :: rest) marks) id = true) (hid : id ∉ i.term.operands) :
    isMarked (markLive rest marks) id = true := by
  rw [markLive_cons] at h
  split at h
  · rcases (isMarked_markAll _ _ _).mp h with h | h
    · exact h
    · exact absurd h.1 hid
  · exact h

/-- **What a marked instruction reads is marked**, where instructions read earlier ones only. -/
theorem markLive_closed {L : List Instruction} {marks : Array Bool}
    (ordered : L.Pairwise fun a b => a.id < b.id)
    (reads : ∀ i ∈ L, ∀ id ∈ i.term.operands, id < i.id) (size : ∀ i ∈ L, i.id < marks.size) :
    ∀ i ∈ L, isMarked (markLive L marks) i.id = true →
      ∀ id ∈ i.term.operands, isMarked (markLive L marks) id = true := by
  induction L with
  | nil => simp
  | cons i rest ih =>
    obtain ⟨before, ordered⟩ := List.pairwise_cons.mp ordered
    have readsFirst := reads i List.mem_cons_self
    intro j hj marked id hid
    rcases List.mem_cons.mp hj with rfl | hj
    · -- it does not read itself, so it was marked before its turn came
      have own : j.id ∉ j.term.operands := fun h => Nat.lt_irrefl _ (readsFirst _ h)
      have turn := isMarked_markLive_cons marked own
      rw [markLive_cons, if_pos turn]
      refine (isMarked_markAll _ _ _).mpr (.inr ⟨hid, ?_⟩)
      rw [size_markLive]
      exact Nat.lt_trans (readsFirst id hid) (size j List.mem_cons_self)
    · -- earlier instructions do not read it either
      have later : j.id ∉ i.term.operands :=
        fun h => Nat.lt_asymm (readsFirst _ h) (before j hj)
      have kept := ih ordered (fun k hk => reads k (List.mem_cons_of_mem _ hk))
        (fun k hk => size k (List.mem_cons_of_mem _ hk)) j hj
        (isMarked_markLive_cons marked later) id hid
      rw [markLive_cons]
      split
      · exact (isMarked_markAll _ _ _).mpr (.inl kept)
      · exact kept

/-! ## 2. Keeping what is marked -/

/-- Instructions read nothing but what is kept, if they are kept. -/
def Closed (keep : Nat → Bool) (L : List Instruction) : Prop :=
  ∀ i ∈ L, keep i.id = true → ∀ id ∈ i.term.operands, keep id = true

/-- What is kept of well-typed instructions is well typed. -/
theorem WellTyped.filter {textures : Nat} {L : List Instruction} (h : WellTyped textures L)
    {keep : Nat → Bool} (closed : Closed keep L) :
    WellTyped textures (L.filter fun i => keep i.id) where
  ordered := h.ordered.filter _
  fits := by
    intro i hi
    obtain ⟨hi, kept⟩ := List.mem_filter.mp hi
    refine (h.fits i hi).imp (fun id hid k ⟨lt, e, he, same, hk⟩ => ?_) (Nat.le_refl _)
    refine ⟨lt, e, List.mem_filter.mpr ⟨he, ?_⟩, same, hk⟩
    rw [same]
    exact closed i hi kept id hid

/-- **What is kept has the values that it has among all.** -/
theorem values?_filter {site : Site} {L : List Instruction} {keep : Nat → Bool}
    (closed : Closed keep L) {env env' all : Nat → Option Value}
    (agree : ∀ id, keep id = true → env id = env' id) (hall : values? site L env = some all) :
    ∃ kept, values? site (L.filter fun i => keep i.id) env' = some kept ∧
      ∀ id, keep id = true → all id = kept id := by
  induction L generalizing env env' with
  | nil =>
    obtain rfl := Option.some.inj hall
    exact ⟨env', rfl, agree⟩
  | cons i rest ih =>
    have closedRest : Closed keep rest := fun j hj => closed j (List.mem_cons_of_mem _ hj)
    obtain ⟨v, hv, hrest⟩ := Option.bind_eq_some_iff.mp hall
    cases kept : keep i.id with
    | true =>
      have same : i.valueOver site env' = some v := by
        rw [← hv]
        refine i.valueOver_congr site fun id hid => (agree id ?_).symm
        exact closed i List.mem_cons_self kept id hid
      have next : ∀ id, keep id = true →
          Function.update env i.id (some v) id = Function.update env' i.id (some v) id := by
        intro id hid
        by_cases he : id = i.id
        · subst he
          rw [Function.update_self, Function.update_self]
        · rw [Function.update_of_ne he, Function.update_of_ne he]
          exact agree id hid
      obtain ⟨final, hfinal, agrees⟩ := ih closedRest next hrest
      refine ⟨final, ?_, agrees⟩
      rw [List.filter_cons, if_pos kept, values?, same, Option.bind_some, hfinal]
    | false =>
      have next : ∀ id, keep id = true → Function.update env i.id (some v) id = env' id := by
        intro id hid
        have other : id ≠ i.id := by
          rintro rfl
          rw [kept] at hid
          cases hid
        rw [Function.update_of_ne other]
        exact agree id hid
      have dropped : ¬ keep i.id = true := by rw [kept]; exact Bool.false_ne_true
      obtain ⟨final, hfinal, agrees⟩ := ih closedRest next hrest
      refine ⟨final, ?_, agrees⟩
      rw [List.filter_cons, if_neg dropped, hfinal]

/-! ## 3. Numbering the textures -/

/-- An instruction whose texture has been given another number. -/
def Instruction.Rebinds (inputs : List Nat) (i i' : Instruction) : Prop :=
  i'.id = i.id ∧ i'.kind = i.kind ∧
    match i.term with
    | .texel slot => ∃ binding : Nat, i'.term = .texel binding ∧ inputs[binding]? = some slot
    | term => i'.term = term

/-- Numbers stay when more textures are bound. -/
theorem Instruction.Rebinds.extend {inputs more : List Nat} {i i' : Instruction}
    (h : i.Rebinds inputs i') (hm : inputs <+: more) : i.Rebinds more i' := by
  obtain ⟨id, kind, term⟩ := i
  obtain ⟨rest, rfl⟩ := hm
  cases term with
  | texel slot =>
    obtain ⟨same, hk, binding, hterm, bound⟩ := h
    refine ⟨same, hk, binding, hterm, ?_⟩
    rw [List.getElem?_append_left (List.getElem?_eq_some_iff.mp bound).1]
    exact bound
  | _ => exact h

/-- The number of a slot is one under which it is bound. -/
theorem bindingOf_spec (slot : Nat) (inputs : List Nat) :
    inputs <+: (bindingOf slot inputs).2 ∧
    (bindingOf slot inputs).2[(bindingOf slot inputs).1]? = some slot ∧
    ∀ s ∈ (bindingOf slot inputs).2, s ∈ inputs ∨ s = slot := by
  unfold bindingOf
  split
  · rename_i binding found
    obtain ⟨lt, here, _⟩ := List.idxOf?_eq_some_iff.mp found
    exact ⟨List.prefix_rfl, by rw [List.getElem?_eq_getElem lt, here], fun s hs => .inl hs⟩
  · refine ⟨List.prefix_append _ _, List.getElem?_concat_length, fun s hs => ?_⟩
    rcases List.mem_append.mp hs with hs | hs
    · exact .inl hs
    · exact .inr (List.mem_singleton.mp hs)

/-- **Renumbering gives every sampled slot a number under which it is bound**, and binds no other
    slots. -/
theorem renumber_spec (L : List Instruction) (inputs : List Nat) :
    inputs <+: (renumber L inputs).2 ∧
    List.Forall₂ (Instruction.Rebinds (renumber L inputs).2) L (renumber L inputs).1 ∧
    ∀ s ∈ (renumber L inputs).2, s ∈ inputs ∨ ∃ i ∈ L, i.term = .texel s := by
  induction L generalizing inputs with
  | nil => exact ⟨List.prefix_rfl, .nil, fun s hs => .inl hs⟩
  | cons i rest ih =>
    obtain ⟨id, kind, term⟩ := i
    cases term with
    | texel slot =>
      obtain ⟨before, bound, slots⟩ := bindingOf_spec slot inputs
      obtain ⟨longer, rebinds, others⟩ := ih (bindingOf slot inputs).2
      refine ⟨before.trans longer, .cons ?_ rebinds, fun s hs => ?_⟩
      · exact Instruction.Rebinds.extend (i := ⟨id, kind, .texel slot⟩)
          ⟨rfl, rfl, _, rfl, bound⟩ longer
      · rcases others s hs with hs | ⟨j, hj, hterm⟩
        · rcases slots s hs with hs | rfl
          · exact .inl hs
          · exact .inr ⟨_, List.mem_cons_self, rfl⟩
        · exact .inr ⟨j, List.mem_cons_of_mem _ hj, hterm⟩
    | _ =>
      obtain ⟨longer, rebinds, others⟩ := ih inputs
      refine ⟨longer, .cons ⟨rfl, rfl, rfl⟩ rebinds, fun s hs => ?_⟩
      rcases others s hs with hs | ⟨j, hj, hterm⟩
      · exact .inl hs
      · exact .inr ⟨j, List.mem_cons_of_mem _ hj, hterm⟩

section Rebound

variable {inputs : List Nat} {L L' : List Instruction}
variable (h : List.Forall₂ (Instruction.Rebinds inputs) L L')
include h

/-- Rebinding keeps the numbers and the kinds of instructions. -/
theorem map_of_rebinds {α : Type} (f : Nat → Kind → α) :
    L'.map (fun i => f i.id i.kind) = L.map fun i => f i.id i.kind := by
  induction h with
  | nil => rfl
  | cons r _ ih => rw [List.map_cons, List.map_cons, ih, r.1, r.2.1]

/-- What is referred to before rebinding is referred to after it. -/
theorem refers_of_rebinds {place id : Nat} {k : Kind} (hr : Refers L place id k) :
    Refers L' place id k := by
  obtain ⟨lt, e, he, hid, hk⟩ := hr
  have mem : (e.id, e.kind) ∈ L'.map fun i => (i.id, i.kind) := by
    rw [map_of_rebinds h Prod.mk]
    exact List.mem_map_of_mem he
  obtain ⟨e', he', same⟩ := List.mem_map.mp mem
  obtain ⟨hid', hk'⟩ := Prod.mk.inj same
  exact ⟨lt, e', he', hid'.trans hid, hk'.trans hk⟩

/-- What is rebound comes from something that has been there before. -/
theorem exists_rebinds {i' : Instruction} (hi : i' ∈ L') : ∃ i ∈ L, i.Rebinds inputs i' := by
  induction h with
  | nil => cases hi
  | cons r _ ih =>
    rcases List.mem_cons.mp hi with rfl | hi
    · exact ⟨_, List.mem_cons_self, r⟩
    · obtain ⟨i, hi, r⟩ := ih hi
      exact ⟨i, List.mem_cons_of_mem _ hi, r⟩

/-- Rebound instructions are well typed over the textures that are bound. -/
theorem WellTyped.rebound {textures : Nat} (hL : WellTyped textures L) :
    WellTyped inputs.length L' where
  ordered := by
    have increasing := hL.ordered
    rw [← List.pairwise_map (f := Instruction.id)] at increasing ⊢
    rw [map_of_rebinds h fun id _ => id]
    exact increasing
  fits := by
    intro i' hi'
    obtain ⟨i, hi, rebinds⟩ := exists_rebinds h hi'
    have fits := hL.fits i hi
    obtain ⟨id, kind, term⟩ := i
    obtain ⟨id', kind', term'⟩ := i'
    obtain ⟨same, hk, hterm⟩ := rebinds
    simp only at same hk
    subst same hk
    have all : ∀ {ids : List Nat} {kinds : List Kind},
        List.Forall₂ (Refers L id') ids kinds → List.Forall₂ (Refers L' id') ids kinds :=
      fun refers => refers.imp fun _ _ r => refers_of_rebinds h r
    cases term with
    | texel slot =>
      obtain ⟨binding, rfl, bound⟩ := hterm
      exact ⟨fits.1, (List.getElem?_eq_some_iff.mp bound).1⟩
    | construct parts =>
      obtain rfl : term' = .construct parts := hterm
      obtain ⟨kinds, refers, built⟩ := fits
      exact ⟨kinds, all refers, built⟩
    | apply op operands =>
      obtain rfl : term' = .apply op operands := hterm
      obtain ⟨kinds, refers, result, lane⟩ := fits
      exact ⟨kinds, all refers, result, lane⟩
    | _ =>
      simp only at hterm
      subst hterm
      exact fits

/-- **Under textures that are bound so, the values stay.** -/
theorem values?_rebinds {site site' : Site} (hx : site'.x = site.x) (hy : site'.y = site.y)
    (htarget : site'.target = site.target)
    (texels : ∀ binding slot : Nat, inputs[binding]? = some slot →
      site'.texels[binding]? = site.texels[slot]?) (env : Nat → Option Value) :
    values? site' L' env = values? site L env := by
  induction h generalizing env with
  | nil => rfl
  | @cons i i' rest rest' r _ ih =>
    have value : i'.valueOver site' env = i.valueOver site env := by
      obtain ⟨id, kind, term⟩ := i
      obtain ⟨id', kind', term'⟩ := i'
      obtain ⟨same, hk, hterm⟩ := r
      simp only at same hk
      subst same hk
      cases term with
      | texel slot =>
        obtain ⟨binding, rfl, bound⟩ := hterm
        exact congrArg (Option.map texelValue) (texels binding slot bound)
      | position =>
        obtain rfl : term' = .position := hterm
        simp only [Instruction.valueOver, hx, hy]
      | resolution =>
        obtain rfl : term' = .resolution := hterm
        simp only [Instruction.valueOver, htarget]
      | _ =>
        simp only at hterm
        subst hterm
        rfl
    rw [values?, values?, value, r.1]
    simp only [ih]

end Rebound

/-! ## 4. Programs -/

/-- An instruction of a program is one of those that are kept, under the numbers that textures are
    bound by. -/
theorem lower_rebinds (L : List Instruction) (output : Nat) (target : Extent) :
    List.Forall₂ (Instruction.Rebinds (Program.lower L output target).inputs)
      (L.filter fun i => isMarked (live L output) i.id)
      (Program.lower L output target).instructions :=
  (renumber_spec (L.filter fun i => isMarked (live L output) i.id) []).2.1

section Lower

variable {textures : Nat} {L : List Instruction} (h : WellTyped textures L)
variable (small : ∀ i ∈ L, i.id < L.length) {o : Instruction} (ho : o ∈ L) (target : Extent)

include h in
/-- Every input of a program is one of the textures. -/
theorem lower_inputs_lt (output : Nat) :
    ∀ s ∈ (Program.lower L output target).inputs, s < textures := by
  intro s hs
  obtain ⟨_, _, slots⟩ := renumber_spec (L.filter fun i => isMarked (live L output) i.id) []
  rcases slots s hs with hs | ⟨i, hi, hterm⟩
  · cases hs
  · have fits := h.fits i (List.mem_filter.mp hi).1
    rw [Instruction.Fits, hterm] at fits
    exact fits.2

include h small in
/-- **What a program's instructions read is in the program.** -/
theorem live_closed (output : Nat) : Closed (isMarked (live L output)) L := by
  rw [live_eq]
  refine markLive_closed h.ordered (fun i hi id hid => ((h.fits i hi).refers id hid).1) ?_
  intro i hi
  rw [size_markAll, Array.size_replicate]
  exact small i hi

include small ho in
/-- The output is in the program. -/
theorem isMarked_output : isMarked (live L o.id) o.id = true := by
  rw [live_eq]
  refine markLive_mono ((isMarked_markAll _ _ _).mpr (.inr ⟨List.mem_singleton_self _, ?_⟩))
  rw [Array.size_replicate]
  exact small o ho

include h small in
/-- **A program of well-typed instructions is well typed**, over the textures that are bound. -/
theorem WellTyped.lower (output : Nat) :
    WellTyped (Program.lower L output target).inputs.length
      (Program.lower L output target).instructions :=
  WellTyped.rebound (lower_rebinds L output target) (h.filter (live_closed h small output))

/-- Every instruction of a program is one of those recorded, apart from its texture. -/
theorem exists_of_mem_lower {output : Nat} {e : Instruction}
    (he : e ∈ (Program.lower L output target).instructions) :
    ∃ i ∈ L, i.id = e.id ∧ i.kind = e.kind ∧ isMarked (live L output) e.id = true := by
  obtain ⟨i, hi, rebinds⟩ := exists_rebinds (lower_rebinds L output target) he
  obtain ⟨hi, marked⟩ := List.mem_filter.mp hi
  exact ⟨i, hi, rebinds.1.symm, rebinds.2.1.symm, by rw [rebinds.1]; exact marked⟩

include small ho in
/-- The output of a program is one of its instructions. -/
theorem exists_output :
    ∃ e ∈ (Program.lower L o.id target).instructions, e.id = o.id ∧ e.kind = o.kind := by
  have kept : o ∈ L.filter fun i => isMarked (live L o.id) i.id :=
    List.mem_filter.mpr ⟨ho, isMarked_output small ho⟩
  have named : Refers (L.filter fun i => isMarked (live L o.id) i.id) (o.id + 1) o.id o.kind :=
    ⟨Nat.lt_succ_self _, o, kept, rfl, rfl⟩
  obtain ⟨_, e, he, hid, hk⟩ := refers_of_rebinds (lower_rebinds L o.id target) named
  exact ⟨e, he, hid, hk⟩

include h small in
/-- **A program's instructions have the values that they have among all instructions**, where its
    textures are those of the slots that they are bound to. -/
theorem lower_values (output : Nat) (site site' : Site) (hx : site'.x = site.x)
    (hy : site'.y = site.y) (htarget : site'.target = site.target)
    (texels : ∀ binding slot : Nat, (Program.lower L output target).inputs[binding]? = some slot →
      site'.texels[binding]? = site.texels[slot]?) {all : Nat → Option Value}
    (hall : values? site L (fun _ => none) = some all) :
    ∃ kept, values? site' (Program.lower L output target).instructions (fun _ => none) = some kept ∧
      ∀ id, isMarked (live L output) id = true → all id = kept id := by
  obtain ⟨kept, hkept, agree⟩ := values?_filter (live_closed h small output)
    (fun _ _ => rfl) hall
  refine ⟨kept, ?_, agree⟩
  rw [values?_rebinds (lower_rebinds L output target) hx hy htarget texels]
  exact hkept

end Lower

end Relief.Shading
