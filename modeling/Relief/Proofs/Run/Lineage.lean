import Relief.Proofs.Run.Staleness

/-!
# Lineages

Generations are copied and tokens are issued and copied, in any number and in any order, and what is
advanced through one copy has been advanced for all. Here the whole history of such uses is compared
with the two counts that a token looks at.

* `Use`, `Custody`, `Custody.after?`: the uses, and what they make one after the other;
* `founder?`: the use that made the counter of a thing, through all of its copies;
* `issuedAt?`: the use that issued a token, or the one that it was copied from;
* `AdvancedAfter`: whether a counter has been advanced after a use, through whatever copy;
* `Keeps`, `keeps_after`: what every history keeps;
* `staleness_follows_lineage`: **a token is stale if its counter has been advanced since it was
  issued, and only then**, as long as there are fewer than `2 ^ 64` advances.
-/

namespace Relief

/-- One use of generations and tokens. What it makes is known from then on by the number of uses
    that there were before it. -/
inductive Use where
  /-- A new generation. -/
  | new
  /-- Another copy of a generation. -/
  | copy (generation : Nat)
  | advance (generation : Nat)
  | issue (generation : Nat)
  /-- Another copy of a token. -/
  | copyToken (token : Nat)
  /-- A token of a counter of its own. -/
  | detach
  deriving DecidableEq

/-- What a use makes. -/
inductive Item where
  | nothing
  | generation (gen : Generation)
  | token (t : Token)
  deriving DecidableEq

/-- All counters, and what has been made, in order. -/
structure Custody where
  generations : Generations
  items : List Item

/-! ## 1. Uses one after the other -/

namespace Custody

/-- Nothing has been made. -/
def empty : Custody :=
  ⟨.empty, []⟩

def generation? (c : Custody) (n : Nat) : Option Generation :=
  match c.items[n]? with
  | some (.generation gen) => some gen
  | _ => none

def token? (c : Custody) (n : Nat) : Option Token :=
  match c.items[n]? with
  | some (.token t) => some t
  | _ => none

/-- With one thing more. -/
def make (c : Custody) (generations : Generations) (item : Item) : Custody :=
  ⟨generations, c.items ++ [item]⟩

/-- One more use; none where it asks for a generation or a token that there is not. -/
def use? (c : Custody) : Use → Option Custody
  | .new => some (c.make c.generations.new.1 (.generation c.generations.new.2))
  | .copy n => (c.generation? n).map fun gen => c.make c.generations (.generation gen)
  | .advance n => (c.generation? n).map fun gen => c.make (c.generations.advance gen) .nothing
  | .issue n =>
    (c.generation? n).map fun gen => c.make c.generations (.token (c.generations.issue gen))
  | .copyToken n => (c.token? n).map fun t => c.make c.generations (.token t)
  | .detach => some (c.make c.generations.detached.1 (.token c.generations.detached.2))

/-- What there is after a history of uses, the latest of which comes first. -/
def after? : List Use → Option Custody
  | [] => some empty
  | u :: past => (after? past).bind (·.use? u)

theorem generation?_eq_some {c : Custody} {n : Nat} {gen : Generation} :
    c.generation? n = some gen ↔ c.items[n]? = some (.generation gen) := by
  unfold generation?
  split <;> simp_all

theorem token?_eq_some {c : Custody} {n : Nat} {t : Token} :
    c.token? n = some t ↔ c.items[n]? = some (.token t) := by
  unfold token?
  split <;> simp_all

end Custody

/-! ## 2. Lineages -/

namespace Use

/-- Whether a use advances a generation. -/
def isAdvance : Use → Bool
  | .advance _ => true
  | _ => false

/-- The use that made the counter of a thing. -/
def founder? : List Use → Nat → Option Nat
  | [], _ => none
  | u :: past, n =>
    if n = past.length then
      match u with
      | .new | .detach => some n
      | .copy m | .issue m | .copyToken m => founder? past m
      | .advance _ => none
    else founder? past n

/-- The use that issued a token. -/
def issuedAt? : List Use → Nat → Option Nat
  | [], _ => none
  | u :: past, n =>
    if n = past.length then
      match u with
      | .issue _ | .detach => some n
      | .copyToken m => issuedAt? past m
      | .new | .copy _ | .advance _ => none
    else issuedAt? past n

/-- Whether a counter has been advanced after a use. -/
def AdvancedAfter (history : List Use) (founder use : Nat) : Prop :=
  ∃ later m, use < later ∧ history.reverse[later]? = some (.advance m) ∧
    founder? history m = some founder

/-- How often a counter has been advanced. -/
def timesAdvanced : List Use → Nat → Nat
  | [], _ => 0
  | .advance m :: past, founder =>
    timesAdvanced past founder + if founder? past m = some founder then 1 else 0
  | _ :: past, founder => timesAdvanced past founder

/-- Whether a use makes a counter. -/
def makesCounter : Use → Bool
  | .new | .detach => true
  | _ => false

/-- How many counters have been made before a use. -/
def countersBefore (history : List Use) (use : Nat) : Nat :=
  (history.reverse.take use).countP makesCounter

variable {history past : List Use} {u : Use} {n f i : Nat}

theorem founder?_cons_of_lt (hn : n < past.length) :
    founder? (u :: past) n = founder? past n :=
  if_neg (Nat.ne_of_lt hn)

theorem issuedAt?_cons_of_lt (hn : n < past.length) :
    issuedAt? (u :: past) n = issuedAt? past n :=
  if_neg (Nat.ne_of_lt hn)

theorem reverse_cons_of_lt (hn : n < past.length) :
    (u :: past).reverse[n]? = past.reverse[n]? := by
  rw [List.reverse_cons, List.getElem?_append_left (by rwa [List.length_reverse])]

theorem reverse_cons_length : (u :: past).reverse[past.length]? = some u := by
  rw [List.reverse_cons, List.getElem?_append_right (Nat.le_of_eq List.length_reverse),
    List.length_reverse, Nat.sub_self]
  rfl

theorem lt_of_reverse (h : history.reverse[n]? = some u) : n < history.length := by
  rw [← List.length_reverse]
  exact (List.getElem?_eq_some_iff.mp h).1

theorem mem_of_reverse (h : history.reverse[n]? = some u) : u ∈ history :=
  List.mem_reverse.mp (List.mem_of_getElem? h)

/-- Each advance is one of a single counter. -/
theorem timesAdvanced_le (history : List Use) (f : Nat) :
    timesAdvanced history f ≤ history.countP isAdvance := by
  induction history with
  | nil => exact Nat.le_refl 0
  | cons u past ih =>
    rw [List.countP_cons]
    cases u with
    | advance m =>
      rw [timesAdvanced, isAdvance, if_pos rfl]
      split <;> omega
    | _ => exact ih

/-- **A counter has been advanced after a use** if it had been before the last use, or is with it. -/
theorem advancedAfter_cons (named : ∀ m, .advance m ∈ u :: past → m < past.length) :
    AdvancedAfter (u :: past) f i ↔
      AdvancedAfter past f i ∨ i < past.length ∧ ∃ m, u = .advance m ∧ founder? past m = some f := by
  constructor
  · rintro ⟨j, m, after, use, founder⟩
    rw [founder?_cons_of_lt (named m (mem_of_reverse use))] at founder
    rcases Nat.lt_succ_iff_lt_or_eq.mp (lt_of_reverse use) with before | rfl
    · rw [reverse_cons_of_lt before] at use
      exact .inl ⟨j, m, after, use, founder⟩
    · rw [reverse_cons_length] at use
      exact .inr ⟨after, m, Option.some.inj use, founder⟩
  · rintro (⟨j, m, after, use, founder⟩ | ⟨after, m, rfl, founder⟩)
    · have before := named m (List.mem_cons_of_mem u (mem_of_reverse use))
      refine ⟨j, m, after, ?_, ?_⟩
      · rwa [reverse_cons_of_lt (lt_of_reverse use)]
      · rwa [founder?_cons_of_lt before]
    · refine ⟨past.length, m, after, reverse_cons_length, ?_⟩
      rwa [founder?_cons_of_lt (named m List.mem_cons_self)]

theorem not_advancedAfter_of_le (h : history.length ≤ i + 1) : ¬ AdvancedAfter history f i := by
  rintro ⟨j, m, after, use, -⟩
  have := lt_of_reverse use
  omega

/-- A thing has been made after its counter. -/
theorem founder?_lt (h : founder? history n = some f) : f < history.length := by
  induction history generalizing n with
  | nil => cases h
  | cons u past ih =>
    rw [List.length_cons]
    by_cases last : n = past.length
    · subst last
      cases u <;> simp only [founder?, if_true, Option.some.injEq, reduceCtorEq] at h
      all_goals first
        | omega
        | exact Nat.lt_succ_of_lt (ih h)
    · have earlier : founder? (u :: past) n = founder? past n := if_neg last
      exact Nat.lt_succ_of_lt (ih (earlier ▸ h))

/-- A counter that is yet to be made has not been advanced. -/
theorem timesAdvanced_of_le (h : history.length ≤ f) : timesAdvanced history f = 0 := by
  induction history with
  | nil => rfl
  | cons u past ih =>
    have zero := ih (Nat.le_of_succ_le h)
    cases u with
    | advance m =>
      have other : founder? past m ≠ some f := fun founder =>
        absurd (founder?_lt founder) (Nat.not_lt.mpr (Nat.le_of_succ_le h))
      rw [timesAdvanced, zero, if_neg other]
    | _ => exact zero

/-- Only an advance changes how often counters have been advanced. -/
theorem timesAdvanced_cons (hu : u.isAdvance = false) :
    timesAdvanced (u :: past) f = timesAdvanced past f := by
  cases u with
  | advance m => cases hu
  | _ => rfl

theorem countersBefore_cons (h : f ≤ past.length) :
    countersBefore (u :: past) f = countersBefore past f := by
  rw [countersBefore, List.reverse_cons, List.take_append_of_le_length]
  · rfl
  · rwa [List.length_reverse]

theorem countersBefore_length : countersBefore past past.length = past.countP makesCounter := by
  rw [countersBefore, ← List.length_reverse, List.take_length, List.countP_reverse]

/-- Behind a use that makes a counter there is one counter more. -/
theorem countersBefore_lt {f' : Nat} (use : history.reverse[f]? = some u)
    (made : u.makesCounter = true) (h : f < f') :
    countersBefore history f < countersBefore history f' := by
  have next : countersBefore history (f + 1) = countersBefore history f + 1 := by
    rw [countersBefore, List.take_add_one, use, List.countP_append]
    exact congrArg (countersBefore history f + ·) (List.countP_cons_of_pos made)
  have more : countersBefore history (f + 1) ≤ countersBefore history f' :=
    (List.take_sublist_take_left h).countP_le
  omega

/-- **Counters are told apart by the uses that made them.** -/
theorem countersBefore_inj {u' : Use} {f' : Nat} (use : history.reverse[f]? = some u)
    (made : u.makesCounter = true) (use' : history.reverse[f']? = some u')
    (made' : u'.makesCounter = true) :
    countersBefore history f = countersBefore history f' ↔ f = f' := by
  refine ⟨fun same => ?_, fun same => by rw [same]⟩
  rcases Nat.lt_trichotomy f f' with lt | same | gt
  · have := countersBefore_lt use made lt
    omega
  · exact same
  · have := countersBefore_lt use' made' gt
    omega

end Use

/-! ## 3. What histories keep -/

namespace Generations

/-- An advance leaves all other counters alone. -/
theorem current_advance_of_ne {g : Generations} {gen gen' : Generation}
    (h : gen.place ≠ gen'.place) : (g.advance gen).current gen' = g.current gen' := by
  rw [current, current, advance, Array.getElem?_setIfInBounds_ne h]

theorem size_advance (g : Generations) (gen : Generation) :
    (g.advance gen).counts.size = g.counts.size :=
  Array.size_setIfInBounds

theorem size_new (g : Generations) : g.new.1.counts.size = g.counts.size + 1 :=
  Array.size_push _

/-- A new counter leaves all others alone. -/
theorem current_new_of_lt {g : Generations} {gen : Generation} (h : gen.place < g.counts.size) :
    g.new.1.current gen = g.current gen := by
  rw [current, current, new, Array.getElem?_push_lt h, Array.getElem?_eq_getElem h]

/-- It is at zero. -/
theorem current_new (g : Generations) : g.new.1.current g.new.2 = 0 := by
  rw [current, new, Array.getElem?_push_size]
  rfl

end Generations

namespace Custody

open Use

variable {history past : List Use} {u : Use} {c : Custody} {g : Generations} {item : Item} {n : Nat}

theorem items_make_of_lt (hn : n < c.items.length) : (c.make g item).items[n]? = c.items[n]? :=
  List.getElem?_append_left hn

theorem items_make_length : (c.make g item).items[c.items.length]? = some item :=
  List.getElem?_concat_length

theorem items_make_cases {item' : Item} (h : (c.make g item).items[n]? = some item') :
    c.items[n]? = some item' ∧ n < c.items.length ∨ n = c.items.length ∧ item' = item := by
  rcases Nat.lt_or_ge n c.items.length with before | after
  · rw [items_make_of_lt before] at h
    exact .inl ⟨h, before⟩
  · have within : n < (c.items ++ [item]).length := (List.getElem?_eq_some_iff.mp h).1
    rw [List.length_append, List.length_singleton] at within
    obtain rfl : n = c.items.length := by omega
    rw [items_make_length] at h
    exact .inr ⟨rfl, (Option.some.inj h).symm⟩

/-- The counter of a place has been founded by a use. -/
structure Founded (history : List Use) (place founder : Nat) : Prop where
  made : ∃ u, history.reverse[founder]? = some u ∧ u.makesCounter = true
  place : place = countersBefore history founder

/-- What the history tells of a token. -/
structure Issued (history : List Use) (n : Nat) (t : Token) (f i : Nat) : Prop where
  founder : founder? history n = some f
  founded : Founded history t.generation.place f
  issue : issuedAt? history n = some i
  lt : i < history.length
  own : history.reverse[i]? = some .detach → f = i
  /-- The token holds how often its counter had been advanced when it was issued. -/
  captured : ∃ times, t.captured = .ofNat times ∧ times ≤ timesAdvanced history f ∧
    (times < timesAdvanced history f ↔ AdvancedAfter history f i)

/-- What the history tells of a thing. -/
def Traced (history : List Use) (n : Nat) : Item → Prop
  | .nothing => True
  | .generation gen => ∃ f, founder? history n = some f ∧ Founded history gen.place f ∧
      history.reverse[f]? = some .new
  | .token t => ∃ f i, Issued history n t f i

/-- **What every history keeps.** -/
structure Keeps (history : List Use) (c : Custody) : Prop where
  length : c.items.length = history.length
  named : ∀ m, .advance m ∈ history → ∃ gen, c.items[m]? = some (.generation gen)
  size : c.generations.counts.size = history.countP makesCounter
  count : ∀ place f, Founded history place f →
    c.generations.current ⟨place⟩ = .ofNat (timesAdvanced history f)
  traced : ∀ n item, c.items[n]? = some item → Traced history n item

theorem keeps_empty : Keeps [] empty where
  length := rfl
  named _ h := by cases h
  size := rfl
  count _ _ h := by
    obtain ⟨⟨u, use, -⟩, -⟩ := h
    cases use
  traced _ _ h := by cases h

theorem Founded.lt {place f : Nat} (h : Founded history place f) : f < history.length := by
  obtain ⟨⟨u, use, -⟩, -⟩ := h
  exact lt_of_reverse use

/-- A counter has one founder. -/
theorem Founded.inj {place place' f f' : Nat} (h : Founded history place f)
    (h' : Founded history place' f') : place = place' ↔ f = f' := by
  obtain ⟨⟨u, use, made⟩, rfl⟩ := h
  obtain ⟨⟨u', use', made'⟩, rfl⟩ := h'
  exact countersBefore_inj use made use' made'

theorem founded_cons {place f : Nat} :
    Founded (u :: past) place f ↔ Founded past place f ∨
      f = past.length ∧ u.makesCounter = true ∧ place = past.countP makesCounter := by
  constructor
  · rintro ⟨⟨u', use, made⟩, rfl⟩
    rcases Nat.lt_succ_iff_lt_or_eq.mp (lt_of_reverse use) with before | rfl
    · rw [reverse_cons_of_lt before] at use
      exact .inl ⟨⟨u', use, made⟩, countersBefore_cons (Nat.le_of_lt before)⟩
    · rw [reverse_cons_length, Option.some.injEq] at use
      subst use
      exact .inr ⟨rfl, made, (countersBefore_cons (Nat.le_refl _)).trans countersBefore_length⟩
  · rintro (h | ⟨rfl, made, rfl⟩)
    · obtain ⟨u', use, made⟩ := h.made
      refine ⟨⟨u', ?_, made⟩, h.place.trans (countersBefore_cons (Nat.le_of_lt h.lt)).symm⟩
      rwa [reverse_cons_of_lt h.lt]
    · refine ⟨⟨u, reverse_cons_length, made⟩, ?_⟩
      rw [countersBefore_cons (Nat.le_refl _), countersBefore_length]

theorem Founded.cons {place f : Nat} (h : Founded past place f) : Founded (u :: past) place f :=
  founded_cons.mpr (.inl h)

theorem Keeps.founded_lt (h : Keeps history c) {place f : Nat} (hf : Founded history place f) :
    place < c.generations.counts.size := by
  obtain ⟨⟨u, use, made⟩, rfl⟩ := hf
  rw [h.size, ← countersBefore_length]
  exact countersBefore_lt use made (lt_of_reverse use)

/-- **What is told of a token stays true**, and it is withdrawn with the next advance of its
    counter. -/
theorem Issued.cons {t : Token} {f i : Nat} (h : Issued past n t f i) (hn : n < past.length)
    (named : ∀ m, .advance m ∈ u :: past → m < past.length) : Issued (u :: past) n t f i where
  founder := (founder?_cons_of_lt hn).trans h.founder
  founded := h.founded.cons
  issue := (issuedAt?_cons_of_lt hn).trans h.issue
  lt := Nat.lt_succ_of_lt h.lt
  own := by
    rw [reverse_cons_of_lt h.lt]
    exact h.own
  captured := by
    obtain ⟨times, captured, le, withdrawn⟩ := h.captured
    refine ⟨times, captured, ?_⟩
    rw [advancedAfter_cons named, ← withdrawn]
    have issued := h.lt
    cases u with
    | advance m =>
      rw [timesAdvanced]
      by_cases here : founder? past m = some f
      · rw [if_pos here]
        exact ⟨by omega, ⟨fun _ => .inr ⟨issued, m, rfl, here⟩, fun _ => by omega⟩⟩
      · rw [if_neg here]
        refine ⟨le, ⟨.inl, fun h => h.resolve_right ?_⟩⟩
        rintro ⟨-, m', same, there⟩
        cases same
        exact here there
    | _ =>
      rw [timesAdvanced_cons rfl]
      exact ⟨le, ⟨.inl, fun h => h.resolve_right fun ⟨_, _, same, _⟩ => by cases same⟩⟩

theorem Traced.cons (h : Traced past n item) (hn : n < past.length)
    (named : ∀ m, .advance m ∈ u :: past → m < past.length) : Traced (u :: past) n item := by
  cases item with
  | nothing => trivial
  | generation gen =>
    obtain ⟨f, founder, founded, use⟩ := h
    refine ⟨f, (founder?_cons_of_lt hn).trans founder, founded.cons, ?_⟩
    rwa [reverse_cons_of_lt founded.lt]
  | token t =>
    obtain ⟨f, i, issued⟩ := h
    exact ⟨f, i, issued.cons hn named⟩

/-- A use keeps what is kept if the counters tell of it and its own item is traced. -/
theorem Keeps.make (h : Keeps past c) (hu : ∀ m, u = .advance m → ∃ gen, c.generation? m = some gen)
    (size : g.counts.size = (u :: past).countP makesCounter)
    (count : ∀ place f, Founded (u :: past) place f →
      g.current ⟨place⟩ = .ofNat (timesAdvanced (u :: past) f))
    (traced : Traced (u :: past) past.length item) : Keeps (u :: past) (c.make g item) := by
  have named : ∀ m, .advance m ∈ u :: past →
      ∃ gen, c.items[m]? = some (.generation gen) ∧ m < past.length := by
    intro m mem
    have held : ∃ gen, c.items[m]? = some (.generation gen) := by
      rcases List.mem_cons.mp mem with same | mem
      · obtain ⟨gen, held⟩ := hu m same.symm
        exact ⟨gen, generation?_eq_some.mp held⟩
      · exact h.named m mem
    obtain ⟨gen, held⟩ := held
    exact ⟨gen, held, h.length ▸ (List.getElem?_eq_some_iff.mp held).1⟩
  refine ⟨?_, fun m mem => ?_, size, count, fun n item' held => ?_⟩
  · rw [Custody.make, List.length_append, h.length]
    rfl
  · obtain ⟨gen, held, lt⟩ := named m mem
    exact ⟨gen, (items_make_of_lt (h.length.symm ▸ lt)).trans held⟩
  · rcases items_make_cases held with ⟨held, lt⟩ | ⟨rfl, rfl⟩
    · refine (h.traced n item' held).cons (h.length ▸ lt) fun m mem => ?_
      obtain ⟨_, _, lt⟩ := named m mem
      exact lt
    · rwa [h.length]

/-- A use that neither makes nor advances a counter. -/
theorem Keeps.share (h : Keeps past c) (stays : u.isAdvance = false)
    (shared : u.makesCounter = false) (traced : Traced (u :: past) past.length item) :
    Keeps (u :: past) (c.make c.generations item) := by
  refine h.make ?_ ?_ (fun place f founded => ?_) traced
  · rintro m rfl
    cases stays
  · rw [h.size, List.countP_cons_of_neg (Bool.not_eq_true _ ▸ shared)]
  · rw [timesAdvanced_cons stays]
    rcases founded_cons.mp founded with founded | ⟨-, made, -⟩
    · exact h.count place f founded
    · rw [shared] at made
      cases made

/-- A use that makes a counter. -/
theorem Keeps.found (h : Keeps past c) (stays : u.isAdvance = false)
    (made : u.makesCounter = true) (traced : Traced (u :: past) past.length item) :
    Keeps (u :: past) (c.make c.generations.new.1 item) := by
  refine h.make ?_ ?_ (fun place f founded => ?_) traced
  · rintro m rfl
    cases stays
  · rw [Generations.size_new, h.size, List.countP_cons_of_pos made]
  · rw [timesAdvanced_cons stays]
    rcases founded_cons.mp founded with founded | ⟨rfl, -, rfl⟩
    · rw [Generations.current_new_of_lt (h.founded_lt founded)]
      exact h.count place f founded
    · rw [← h.size, timesAdvanced_of_le (Nat.le_refl _)]
      exact Generations.current_new c.generations

/-- **An advance counts for all copies of its generation, and for nothing else.** -/
theorem Keeps.advance {m : Nat} {gen : Generation} (h : Keeps past c)
    (held : c.generation? m = some gen) :
    Keeps (.advance m :: past) (c.make (c.generations.advance gen) .nothing) := by
  obtain ⟨f, founder, founded, -⟩ := h.traced m _ (generation?_eq_some.mp held)
  refine h.make ?_ ?_ (fun place f' founded' => ?_) trivial
  · rintro m' same
    cases same
    exact ⟨gen, held⟩
  · rw [Generations.size_advance, h.size]
    rfl
  · have founded' : Founded past place f' :=
      (founded_cons.mp founded').resolve_right fun ⟨_, made, _⟩ => by cases made
    rw [timesAdvanced, founder]
    by_cases same : f = f'
    · obtain rfl : gen.place = place := (founded.inj founded').mpr same
      rw [if_pos (congrArg some same), Generations.current_advance (h.founded_lt founded),
        h.count gen.place f' founded']
      exact (UInt64.ofNat_add (timesAdvanced past f') 1).symm
    · have other : gen.place ≠ place := fun place => same ((founded.inj founded').mp place)
      rw [if_neg fun both => same (Option.some.inj both), Generations.current_advance_of_ne other]
      exact h.count place f' founded'

theorem Keeps.lt (h : Keeps history c) (held : c.items[n]? = some item) : n < history.length :=
  h.length ▸ (List.getElem?_eq_some_iff.mp held).1

/-- What has been advanced had been made. -/
theorem Keeps.named_use {c' : Custody} (h : Keeps past c) (step : c.use? u = some c') {m : Nat}
    (mem : .advance m ∈ u :: past) : m < past.length := by
  rcases List.mem_cons.mp mem with rfl | mem
  · obtain ⟨gen, held, -⟩ := Option.map_eq_some_iff.mp step
    exact h.lt (generation?_eq_some.mp held)
  · obtain ⟨gen, held⟩ := h.named m mem
    exact h.lt held

/-- **One use keeps what is kept.** -/
theorem Keeps.use {c' : Custody} (h : Keeps past c) (step : c.use? u = some c') :
    Keeps (u :: past) c' := by
  cases u with
  | new =>
    cases step
    exact h.found rfl rfl ⟨past.length, if_pos rfl, founded_cons.mpr (.inr ⟨rfl, rfl, h.size⟩),
      reverse_cons_length⟩
  | copy m =>
    obtain ⟨gen, held, rfl⟩ := Option.map_eq_some_iff.mp step
    obtain ⟨f, founder, founded, use⟩ := h.traced m _ (generation?_eq_some.mp held)
    refine h.share rfl rfl ⟨f, (if_pos rfl).trans founder, founded.cons, ?_⟩
    rwa [reverse_cons_of_lt founded.lt]
  | advance m =>
    obtain ⟨gen, held, rfl⟩ := Option.map_eq_some_iff.mp step
    exact h.advance held
  | issue m =>
    obtain ⟨gen, held, rfl⟩ := Option.map_eq_some_iff.mp step
    obtain ⟨f, founder, founded, -⟩ := h.traced m _ (generation?_eq_some.mp held)
    refine h.share rfl rfl ⟨f, past.length, (if_pos rfl).trans founder, founded.cons, if_pos rfl,
      Nat.lt_succ_self _, fun use => ?_, timesAdvanced past f, h.count gen.place f founded,
      Nat.le_refl _, fun lt => absurd lt (Nat.lt_irrefl _), fun advanced => ?_⟩
    · rw [reverse_cons_length] at use
      cases use
    · exact absurd advanced (not_advancedAfter_of_le (Nat.le_refl _))
  | copyToken m =>
    have named := fun m' => h.named_use (m := m') step
    obtain ⟨t, held, rfl⟩ := Option.map_eq_some_iff.mp step
    have held := token?_eq_some.mp held
    obtain ⟨f, i, issued⟩ := h.traced m _ held
    have kept : Issued (.copyToken m :: past) m t f i := issued.cons (h.lt held) named
    exact h.share rfl rfl ⟨f, i, { kept with
      founder := (if_pos rfl).trans issued.founder
      issue := (if_pos rfl).trans issued.issue }⟩
  | detach =>
    cases step
    refine h.found rfl rfl ⟨past.length, past.length, if_pos rfl,
      founded_cons.mpr (.inr ⟨rfl, rfl, h.size⟩), if_pos rfl, Nat.lt_succ_self _, fun _ => rfl,
      0, Generations.current_new c.generations, Nat.zero_le _, fun lt => ?_, fun advanced => ?_⟩
    · rw [timesAdvanced_cons rfl, timesAdvanced_of_le (Nat.le_refl _)] at lt
      exact absurd lt (Nat.lt_irrefl 0)
    · exact absurd advanced (not_advancedAfter_of_le (Nat.le_refl _))

/-- **What every history keeps**, by induction on it. -/
theorem keeps_after (h : after? history = some c) : Keeps history c := by
  induction history generalizing c with
  | nil =>
    cases h
    exact keeps_empty
  | cons u past ih =>
    obtain ⟨before, hpast, step⟩ := Option.bind_eq_some_iff.mp h
    exact (ih hpast).use step

/-! ## 4. Staleness -/

theorem Keeps.issued {t : Token} (h : Keeps history c) (held : c.token? n = some t) :
    ∃ f i, Issued history n t f i :=
  h.traced n _ (token?_eq_some.mp held)

/-- Fewer than `2 ^ 64` advances are told apart by the count. -/
theorem Keeps.isStale_iff {t : Token} {f i : Nat} (h : Keeps history c)
    (few : history.countP isAdvance < 2 ^ 64) (issued : Issued history n t f i) :
    c.generations.isStale t = true ↔ AdvancedAfter history f i := by
  obtain ⟨times, captured, le, withdrawn⟩ := issued.captured
  have most := timesAdvanced_le history f
  have moved : c.generations.isStale t = true ↔ timesAdvanced history f ≠ times := by
    rw [Generations.isStale, decide_eq_true_iff, h.count _ f issued.founded, captured, ne_eq,
      ← UInt64.toNat_inj, UInt64.toNat_ofNat_of_lt' (Nat.lt_of_le_of_lt most few),
      UInt64.toNat_ofNat_of_lt' (Nat.lt_of_le_of_lt (Nat.le_trans le most) few)]
  rw [moved, ← withdrawn]
  omega

/-- Nobody holds the counter of a detached token, so nobody advances it. -/
theorem Keeps.detached {t : Token} {f i : Nat} (h : Keeps history c)
    (issued : Issued history n t f i) (detached : history.reverse[i]? = some .detach) :
    ¬ AdvancedAfter history f i := by
  obtain rfl := issued.own detached
  rintro ⟨later, m, -, use, founder⟩
  obtain ⟨gen, held⟩ := h.named m (mem_of_reverse use)
  obtain ⟨f', founder', -, made⟩ := h.traced m _ held
  obtain rfl : f' = f := Option.some.inj (founder'.symm.trans founder)
  rw [made] at detached
  cases detached

/-- What has been made stays as it is. -/
theorem use?_eq_some {c' : Custody} (step : c.use? u = some c') : ∃ g item, c' = c.make g item := by
  cases u with
  | new | detach =>
    cases step
    exact ⟨_, _, rfl⟩
  | _ =>
    obtain ⟨x, -, rfl⟩ := Option.map_eq_some_iff.mp step
    exact ⟨_, _, rfl⟩

theorem token?_use {c' : Custody} {t : Token} (step : c.use? u = some c')
    (held : c.token? n = some t) : c'.token? n = some t := by
  obtain ⟨g, item, rfl⟩ := use?_eq_some step
  have held := token?_eq_some.mp held
  exact token?_eq_some.mpr
    ((items_make_of_lt (List.getElem?_eq_some_iff.mp held).1).trans held)

/-- **One use leaves a stale token stale.** -/
theorem Keeps.stale_use {c' : Custody} {t : Token} (h : Keeps past c) (step : c.use? u = some c')
    (few : (u :: past).countP isAdvance < 2 ^ 64) (held : c.token? n = some t)
    (stale : c.generations.isStale t = true) : c'.generations.isStale t = true := by
  obtain ⟨f, i, issued⟩ := h.issued held
  have named := fun m => h.named_use (m := m) step
  have before : past.countP isAdvance < 2 ^ 64 :=
    Nat.lt_of_le_of_lt (List.sublist_cons_self u past).countP_le few
  rw [h.isStale_iff before issued] at stale
  rw [(h.use step).isStale_iff few (issued.cons (h.lt (token?_eq_some.mp held)) named),
    advancedAfter_cons named]
  exact .inl stale

/-- **So do many**, by induction on them. -/
theorem stale_later {later : List Use} {c' : Custody} {t : Token} (h : after? history = some c)
    (h' : after? (later ++ history) = some c')
    (few : (later ++ history).countP isAdvance < 2 ^ 64) (held : c.token? n = some t) :
    c'.token? n = some t ∧
      (c.generations.isStale t = true → c'.generations.isStale t = true) := by
  induction later generalizing c' with
  | nil =>
    obtain rfl : c = c' := Option.some.inj (h.symm.trans h')
    exact ⟨held, id⟩
  | cons u later ih =>
    obtain ⟨before, hbefore, step⟩ := Option.bind_eq_some_iff.mp h'
    have fewer : (later ++ history).countP isAdvance < 2 ^ 64 :=
      Nat.lt_of_le_of_lt (List.sublist_cons_self u _).countP_le few
    obtain ⟨there, stale⟩ := ih hbefore fewer
    exact ⟨token?_use step there,
      fun h => (keeps_after hbefore).stale_use step few there (stale h)⟩

/-- **An advance leaves the tokens of all other lineages alone.** -/
theorem Keeps.isStale_advance {m : Nat} {c' : Custody} {t : Token} (h : Keeps history c)
    (step : c.use? (.advance m) = some c') (held : c.token? n = some t)
    (other : founder? history n ≠ founder? history m) :
    c'.generations.isStale t = c.generations.isStale t := by
  obtain ⟨gen, made, rfl⟩ := Option.map_eq_some_iff.mp step
  obtain ⟨f, i, issued⟩ := h.issued held
  obtain ⟨f', founder, founded, -⟩ := h.traced m _ (generation?_eq_some.mp made)
  have apart : gen.place ≠ t.generation.place := fun same => by
    rw [founder, issued.founder, (founded.inj issued.founded).mp same] at other
    exact other rfl
  rw [Generations.isStale, Generations.isStale, Custody.make,
    Generations.current_advance_of_ne apart]

/-- **Staleness follows lineages.** After any history of uses with fewer than `2 ^ 64` advances, a
    token is stale if and only if its counter has been advanced, through whatever copy of its
    generation, after the token, or the one it was copied from, had been issued; a detached token is
    never stale. Later uses leave a stale token stale, and an advance concerns no token of another
    lineage. -/
theorem staleness_follows_lineage (h : after? history = some c)
    (few : history.countP isAdvance < 2 ^ 64) :
    (∀ n t, c.token? n = some t → ∃ f i, founder? history n = some f ∧
      issuedAt? history n = some i ∧
      (c.generations.isStale t = true ↔ AdvancedAfter history f i) ∧
      (history.reverse[i]? = some .detach → c.generations.isStale t = false)) ∧
    (∀ later c', after? (later ++ history) = some c' →
      (later ++ history).countP isAdvance < 2 ^ 64 → ∀ n t, c.token? n = some t →
      c'.token? n = some t ∧
        (c.generations.isStale t = true → c'.generations.isStale t = true)) ∧
    ∀ m c', c.use? (.advance m) = some c' → ∀ n t, c.token? n = some t →
      founder? history n ≠ founder? history m →
      c'.generations.isStale t = c.generations.isStale t := by
  have keeps := keeps_after h
  refine ⟨fun n t held => ?_, fun later c' h' few' n t held => stale_later h h' few' held,
    fun m c' step n t held other => keeps.isStale_advance step held other⟩
  obtain ⟨f, i, issued⟩ := keeps.issued held
  have stale := keeps.isStale_iff few issued
  refine ⟨f, i, issued.founder, issued.issue, stale, fun detached => ?_⟩
  rw [Bool.eq_false_iff, ne_eq, stale]
  exact keeps.detached issued detached

/-- A token is issued from a copy of a generation, copied, and withdrawn through the generation
    itself; a token of another generation and a detached one are not. -/
theorem staleness_of_copies :
    ∃ c c', after? [.detach, .issue 4, .new, .copyToken 2, .issue 1, .copy 0, .new] = some c ∧
      c.use? (.advance 0) = some c' ∧
      (∃ t, c'.token? 3 = some t ∧ c'.generations.isStale t = true) ∧
      (∃ t, c'.token? 5 = some t ∧ c'.generations.isStale t = false) ∧
      ∃ t, c'.token? 6 = some t ∧ c'.generations.isStale t = false := by
  have before : ∃ c, after? [.detach, .issue 4, .new, .copyToken 2, .issue 1, .copy 0, .new]
      = some c := ⟨_, rfl⟩
  have behind : ∃ c', after? [.advance 0, .detach, .issue 4, .new, .copyToken 2, .issue 1, .copy 0,
      .new] = some c' := ⟨_, rfl⟩
  obtain ⟨c, hc⟩ := before
  obtain ⟨c', hc'⟩ := behind
  obtain ⟨traced, -, -⟩ := staleness_follows_lineage hc' (by decide)
  obtain ⟨-, -, apart⟩ := staleness_follows_lineage hc (by decide)
  cases hc
  cases hc'
  refine ⟨_, _, rfl, rfl, ⟨_, rfl, ?_⟩, ⟨_, rfl, apart 0 _ rfl 5 _ rfl (by decide)⟩, ⟨_, rfl, ?_⟩⟩
  · obtain ⟨f, i, founder, issue, stale, -⟩ := traced 3 _ rfl
    cases founder
    cases issue
    exact stale.mpr ⟨7, 0, by decide, rfl, rfl⟩
  · obtain ⟨f, i, -, issue, -, detached⟩ := traced 6 _ rfl
    cases issue
    exact detached rfl

end Custody

end Relief
