import StyleRules.Proofs.Acceptance
import Mathlib.Order.Bounds.Defs
import StyleRules.SyntaxTree.Comparison

namespace StyleRules

namespace Edit

/-- One of the two edits ends no later than the other one starts. -/
def Apart (a b : Edit) : Prop := a.stop ≤ b.offset ∨ b.stop ≤ a.offset

theorem Apart.symm {a b : Edit} (h : a.Apart b) : b.Apart a := Or.symm h

/-- What comes after an edit going backwards and is apart from it ends before it. -/
theorem stop_le_of_apart {first e : Edit} (h : first.notBefore e) (apart : first.Apart e) :
    e.stop ≤ first.offset := by
  have hstart := first.offset_le_stop
  rcases apart with hbehind | hbefore
  · -- Only an insertion at the very place ends no later than what starts no later than itself.
    rcases notBefore_iff.mp h with hlt | ⟨hsame, hstop⟩
    · omega
    · omega
  · exact hbefore

/-- Of edits that are apart and come after one going backwards, at most one reaches past its
start. -/
theorem length_filter_reaching_le_one {first : Edit} {chosen : List Edit}
    (after : ∀ e ∈ chosen, first.notBefore e) (apart : chosen.Pairwise Apart) :
    (chosen.filter fun e => first.offset < e.stop).length ≤ 1 := by
  have hreaching : ∀ e ∈ chosen.filter fun e => first.offset < e.stop,
      e.offset ≤ first.offset ∧ first.offset < e.stop := by
    intro e he
    obtain ⟨hmem, hstop⟩ := List.mem_filter.mp he
    refine ⟨?_, by simpa using hstop⟩
    rcases notBefore_iff.mp (after e hmem) with hlt | ⟨hsame, -⟩
    · exact Nat.le_of_lt hlt
    · exact Nat.le_of_eq hsame
  have hapart : (chosen.filter fun e => first.offset < e.stop).Pairwise Apart := apart.filter _
  cases hfilter : chosen.filter fun e => first.offset < e.stop with
  | nil => exact Nat.zero_le 1
  | cons a more =>
    cases more with
    | nil => exact Nat.le_refl 1
    | cons b rest =>
      rw [hfilter] at hreaching hapart
      have ha := hreaching a (by simp)
      have hb := hreaching b (by simp)
      rcases (List.pairwise_cons.mp hapart).1 b (by simp) with h | h
      · omega
      · omega

variable {α : Type} {allowed : Edit → Option α}

/-- No choice of allowed edits that are apart has more edits than are kept. -/
theorem length_le_keep {limit : Option Nat} {edits chosen : List Edit}
    (sorted : edits.Pairwise fun a b => a.notBefore b) (among : chosen.Sublist edits)
    (hallowed : ∀ e ∈ chosen, (allowed e).isSome) (apart : chosen.Pairwise Apart)
    (hlimit : ∀ n ∈ limit, ∀ e ∈ chosen, e.stop ≤ n) :
    chosen.length ≤ (keep allowed limit edits).length := by
  induction edits generalizing limit chosen with
  | nil => simp [List.sublist_nil.mp among]
  | cons first rest ih =>
    obtain ⟨hfirst, hrest⟩ := List.pairwise_cons.mp sorted
    cases among with
    | @cons _ _ _ among =>
      unfold keep
      cases ha : allowed first with
      | none => exact ih hrest among hallowed apart hlimit
      | some a =>
        dsimp only
        split
        next =>
          -- The edit kept makes up for the one chosen edit that may reach past its start.
          have hone := length_filter_reaching_le_one (fun e he => hfirst e (among.subset he)) apart
          have hsplit := List.length_eq_length_filter_add (l := chosen)
            fun e => first.offset < e.stop
          have hbefore : ∀ n ∈ some first.offset,
              ∀ e ∈ chosen.filter (fun e => !decide (first.offset < e.stop)), e.stop ≤ n := by
            intro n hn e he
            cases Option.mem_some.mp hn
            simpa using (List.mem_filter.mp he).2
          have hkept := ih hrest (List.filter_sublist.trans among)
            (fun e he => hallowed e (List.mem_filter.mp he).1) (apart.filter _) hbefore
          rw [List.length_cons]
          omega
        next => exact ih hrest among hallowed apart hlimit
    | @cons_cons chosen _ _ among =>
      obtain ⟨hown, hapart⟩ := List.pairwise_cons.mp apart
      obtain ⟨a, ha⟩ := Option.isSome_iff_exists.mp (hallowed first List.mem_cons_self)
      have hfits : limit.all (first.stop ≤ ·) = true := by
        rw [Option.all_eq_true]
        intro n hn
        exact decide_eq_true (hlimit n hn first List.mem_cons_self)
      have hbefore : ∀ n ∈ some first.offset, ∀ e ∈ chosen, e.stop ≤ n := by
        intro n hn e he
        cases Option.mem_some.mp hn
        exact stop_le_of_apart (hfirst e (among.subset he)) (hown e he)
      have hkept := ih hrest among (fun e he => hallowed e (List.mem_cons_of_mem first he)) hapart
        hbefore
      simp only [keep, ha, if_pos hfits, List.length_cons]
      omega

end Edit

namespace Rule

/-- Edits of those proposed for a file that start where the rule is enabled and that are apart from
one another, each chosen no more often than it is proposed. -/
structure MayChoose (r : Rule) (f : SourceFile) (proposed chosen : List Edit) : Prop where
  subperm : chosen.Subperm proposed
  enabled : ∀ e ∈ chosen, f.isEnabled r.identifier (f.locate e.offset)
  apart : chosen.Pairwise Edit.Apart

variable {r : Rule} {f : SourceFile} {proposed chosen : List Edit}

theorem mayChoose_accepted (plain : r.CorrectsPlainly) (f : SourceFile) (proposed : List Edit) :
    r.MayChoose f proposed (r.accepted f proposed) where
  subperm := accepted_subperm r f proposed
  enabled := fun _ he => accepted_enabled plain he
  apart := (accepted_apart r f proposed).imp Or.inl

theorem length_le_accepted (plain : r.CorrectsPlainly) (h : r.MayChoose f proposed chosen) :
    chosen.length ≤ (r.accepted f proposed).length := by
  have hsorted := h.subperm.trans (Edit.fromLast_perm proposed).symm.subperm
  obtain ⟨ordered, hperm, hsublist⟩ := hsorted
  have hallowed : ∀ e ∈ ordered, (r.enabledPlace f e).isSome := by
    intro e he
    rw [isSome_enabledPlace]
    exact h.enabled e (hperm.mem_iff.mp he)
  have hapart : ordered.Pairwise Edit.Apart :=
    hperm.symm.pairwise h.apart fun hab => hab.symm
  have hkept := @Edit.length_le_keep _ (r.enabledPlace f) none _ _
    (Edit.fromLast_pairwise proposed) hsublist hallowed hapart (by simp)
  rw [← hperm.length_eq, accepted, acceptable_eq plain, List.length_reverse, List.length_map]
  exact hkept

/-- Correcting a file makes as many edits as any choice of those proposed has that start where the
rule is enabled and do not overlap, and returns one correction for each of them. -/
theorem correct_makes_most [Parser] (plain : r.CorrectsPlainly) {desk : Desk} {edits : List Edit}
    (proposed : (r.proposals desk.file desk.cache).1 = .ok edits) :
    let made := r.accepted desk.file edits
    IsGreatest {n | ∃ chosen, r.MayChoose desk.file edits chosen ∧ chosen.length = n}
        made.length ∧
      (∀ corrections, (r.correct desk).1 = .ok corrections → corrections.length = made.length) ∧
      (desk.Writable → ∃ corrections, (r.correct desk).1 = .ok corrections) := by
  intro made
  obtain ⟨cache, hcorrect⟩ := correct_of_proposed plain proposed
  refine ⟨⟨⟨made, mayChoose_accepted plain desk.file edits, rfl⟩, ?_⟩, ?_, ?_⟩
  · rintro n ⟨chosen, hchosen, rfl⟩
    exact length_le_accepted plain hchosen
  · intro corrections hok
    rw [hcorrect] at hok
    split at hok
    next hnone =>
      cases Except.ok.inj hok
      exact (congrArg List.length hnone).symm
    next =>
      split at hok
      next => cases hok
      next =>
        cases Except.ok.inj hok
        exact List.length_map _
  · intro writable
    rw [hcorrect]
    split
    next => exact ⟨_, rfl⟩
    next =>
      obtain ⟨written, hwritten⟩ :=
        writable (Edit.applyAll desk.file.contents (r.accepted desk.file edits).reverse)
      rw [hwritten]
      exact ⟨_, rfl⟩

open scoped Comparison

/-- Of eight proposals in two words three can be made: the second word is behind a directive, and
of the two replacements in the first word only one. -/
theorem correct_makes_most_bracketing :
    let desk : Desk :=
      { file := { contents := "ok\n# lintcheck:disable bracketing\nok".toList } }
    let edits : List Edit :=
      [⟨0, 0, ['<']⟩, ⟨0, 0, ['(']⟩, ⟨0, 2, ['X']⟩, ⟨1, 1, ['y']⟩,
        ⟨34, 0, ['<']⟩, ⟨34, 0, ['(']⟩, ⟨34, 2, ['X']⟩, ⟨35, 1, ['y']⟩]
    bracketing.CorrectsPlainly ∧ (bracketing.proposals desk.file desk.cache).1 = .ok edits ∧
      IsGreatest {n | ∃ chosen, bracketing.MayChoose desk.file edits chosen ∧ chosen.length = n}
        3 ∧
      ∃ corrections, (bracketing.correct desk).1 = .ok corrections ∧ corrections.length = 3 := by
  intro desk edits
  have plain : bracketing.CorrectsPlainly := ⟨_, rfl, rfl, rfl⟩
  have proposed : (bracketing.proposals desk.file desk.cache).1 = .ok edits := by decide +kernel
  have hmade : (bracketing.accepted desk.file edits).length = 3 := by decide +kernel
  obtain ⟨hmost, hlength, hreturns⟩ := correct_makes_most plain proposed
  obtain ⟨corrections, hok⟩ := hreturns (Desk.writable_of_path_eq_none rfl)
  rw [hmade] at hmost hlength
  exact ⟨plain, proposed, hmost, corrections, hok, hlength corrections hok⟩

end Rule

end StyleRules
