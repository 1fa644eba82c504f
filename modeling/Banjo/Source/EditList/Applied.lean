import Banjo.Source.EditList.Simultaneous
import Mathlib.Algebra.Order.BigOperators.Group.Finset
import Mathlib.Algebra.BigOperators.Group.Finset.Piecewise
import Mathlib.Order.Interval.Finset.Nat

/-!
# Applying sorted edits

The loop copies the text between one edit and the next, so its output is the simultaneous
replacement as long as every edit starts where the one before it has ended, or later. The sort
compares nothing but the starts: a replacement may come before an insertion at its start, from which
the loop copies a range that ends before it starts, and two insertions may come in either order. The
output is right for every order exactly when such edits are insertions with texts that commute, and
the text and the list are short enough for `unsigned`.
-/

open List Option

namespace Banjo.EditList

open Loops

variable {content input : List Char} {edits sorted es lo hi : List Edit} {e f x y : Edit}
  {p prevEnd : ℕ} {r : List Char}

/-! ## The output of the loop -/

theorem slice_eq_some {a b : ℕ} {s : List Char} (h : slice input a b = some s) :
    a ≤ b ∧ b ≤ input.length ∧ s = (input.drop a).take (b - a) := by
  rw [slice] at h
  split_ifs at h with hab
  exact ⟨hab.1, hab.2, (some_injective _ h).symm⟩

/-- The text from a position on. -/
def pieces (input : List Char) : ℕ → List Edit → Option (List Char)
  | prevEnd, [] => slice input prevEnd input.length
  | prevEnd, e :: es => do
    let between ← slice input prevEnd e.range.start
    let rest ← pieces input e.range.stop es
    return between ++ e.replacement ++ rest

/-- Where the last of the edits ends. -/
def lastEnd (edits : List Edit) : ℕ := (edits.getLast?.map (·.range.stop)).getD 0

theorem prevEnd_eq (lo es : List Edit) :
    (if lo.length = 0 then 0 else ((lo ++ es)[lo.length - 1]?.map (·.range.stop)).getD 0)
      = lastEnd lo := by
  rcases eq_nil_or_concat lo with rfl | ⟨init, e, rfl⟩
  · rfl
  · simp [lastEnd]

theorem ends_iff_pieces (lo es : List Edit) (output : List Char) {r : Option (List Char)}
    (hlen : (lo ++ es).length < 2 ^ 32) :
    Ends (editTurn input (lo ++ es)) (lo.length, output) r
      ↔ r = (pieces input (lastEnd lo) es).map (output ++ ·) := by
  induction es generalizing lo output with
  | nil => exact ends_iff_of_inr (by simp [editTurn, pieces, lastEnd])
  | cons e es ih =>
    have hread : (lo ++ e :: es)[lo.length]? = some e := by simp
    rw [length_append, length_cons] at hlen
    cases hslice : slice input (lastEnd lo) e.range.start with
    | none =>
      have hturn : editTurn input (lo ++ e :: es) (lo.length, output) = .inr none := by
        simp only [editTurn, hread, prevEnd_eq, hslice]
      rw [ends_iff_of_inr hturn]
      simp [pieces, hslice]
    | some between =>
      have hturn : editTurn input (lo ++ e :: es) (lo.length, output)
          = .inl ((lo ++ [e]).length, output ++ between ++ e.replacement) := by
        simp only [editTurn, hread, prevEnd_eq, hslice,
          next_eq (show lo.length + 1 < 2 ^ 32 by omega),
          length_append, length_singleton]
      have hlast : lastEnd (lo ++ [e]) = e.range.stop := by simp [lastEnd]
      have hrest := ih (lo ++ [e]) (output ++ between ++ e.replacement)
        (by simpa [Nat.add_assoc, Nat.add_comm 1] using hlen)
      rw [append_assoc, singleton_append, hlast] at hrest
      rw [ends_iff_of_inl hturn, hrest]
      cases hpieces : pieces input e.range.stop es <;>
        simp [pieces, hslice, hpieces]

theorem outputs_iff {r : Option (List Char)} (hlen : sorted.length < 2 ^ 32) :
    Outputs input sorted r ↔ r = pieces input 0 sorted := by
  rw [Outputs]
  split_ifs with hnil
  · subst hnil
    simp [pieces, slice]
  · have h : Ends (editTurn input sorted) (0, []) r ↔ r = (pieces input 0 sorted).map ([] ++ ·) :=
      ends_iff_pieces [] sorted [] hlen
    simpa using h

/-- An index of 32 bits never comes to the end of a list as long as that. -/
theorem not_outputs_of_long (hlen : 2 ^ 32 ≤ sorted.length) : ¬Outputs input sorted (some r) := by
  have hne : sorted ≠ [] := by
    rintro rfl
    simp at hlen
  rw [Outputs, if_neg hne]
  intro h
  have hnone := h.of_invariant (I := fun s ↦ s.1 < 2 ^ 32) (Q := (· = none))
    (fun s t _ hst ↦ ?_) (fun s r hs hsr ↦ ?_) (Nat.two_pow_pos 32)
  · simp at hnone
  · obtain ⟨i, output⟩ := s
    simp only [editTurn] at hst
    split at hst
    · split at hst
      · exact Sum.inl_injective hst ▸ next_lt i
      · simp at hst
    · simp at hst
  · obtain ⟨i, output⟩ := s
    have hi : i < sorted.length := lt_of_lt_of_le hs hlen
    simp only [editTurn, getElem?_eq_getElem hi] at hsr
    split at hsr
    · simp at hsr
    · exact (Sum.inr_injective hsr).symm

/-! ## Edits one behind the other -/

/-- One edit has ended where the other starts. -/
def Before (e f : Edit) : Prop := e.range.stop ≤ f.range.start

/-- Up to the first edit the text comes through. -/
theorem outFrom_before {a b : ℕ} (hb : b ≤ content.length)
    (h : ∀ e ∈ es, b ≤ e.range.start ∧ e.range.start ≤ e.range.stop) :
    outFrom content es a b = (content.drop a).take (b - a) := by
  refine outFrom_of_kept hb fun p _ hp ↦ ?_
  have hstart : ∀ e ∈ es, p < e.range.start := fun e he ↦ lt_of_lt_of_le hp (h e he).1
  rw [outAt, texts_eq_nil fun e he hkind ↦ (hstart e he).ne' hkind.1,
    texts_eq_nil fun e he hkind ↦ (hstart e he).ne' hkind.1,
    kept_of_not_covers fun e he hkind ↦ absurd hkind.1 (hstart e he).not_ge]
  rfl

/-- At and behind the start of the first edit. -/
theorem outFrom_cons (hrange : InText content e.range)
    (hbehind : ∀ f ∈ es, Before e f ∧ f.range.start ≤ f.range.stop) :
    outFrom content (e :: es) e.range.start (content.length + 1)
      = e.replacement ++ outFrom content es e.range.stop (content.length + 1) := by
  obtain ⟨hle, hstop, -⟩ := hrange
  rcases hle.eq_or_lt with heq | hlt
  · -- an insertion: its text comes before what the others give at its position
    have hcovers : ∀ p, ¬Covers e p := by
      rintro p ⟨h, h'⟩
      omega
    have hfirst : outAt content (e :: es) e.range.start
        = e.replacement ++ outAt content es e.range.start := by
      rw [outAt, outAt, texts_cons_of_pos es (show InsertsAt e e.range.start from ⟨rfl, heq.symm⟩),
        texts_cons_of_neg es fun h ↦ hcovers _ ⟨h.1.le, h.2⟩,
          kept_cons_of_not_covers es (hcovers _)]
      simp only [append_assoc]
    have hrest : outFrom content (e :: es) (e.range.start + 1) (content.length + 1)
        = outFrom content es (e.range.start + 1) (content.length + 1) :=
      outFrom_congr fun p hp _ ↦ outAt_cons_away es (by omega) (hcovers p)
    rw [outFrom_succ (by omega), hfirst, hrest, append_assoc, ← heq, ← outFrom_succ (by omega)]
  · -- a replacement: the others are behind its end
    have hinside : outFrom content ([] ++ e :: es) e.range.start e.range.stop
        = texts ([] ++ es) (InsertsAt · e.range.start) ++ e.replacement :=
      outFrom_range (fun f hf ↦ .inl (hbehind f hf).1) hlt
    have hinserts : texts es (InsertsAt · e.range.start) = [] :=
      texts_eq_nil fun f hf h ↦ by
        have hle : e.range.stop ≤ f.range.start := (hbehind f hf).1
        have heq : f.range.start = e.range.start := h.1
        omega
    rw [nil_append, nil_append, hinserts, nil_append] at hinside
    rw [outFrom_append hle (by omega), hinside]
    congr 1
    exact outFrom_congr fun p hp _ ↦ outAt_cons_away es (by omega) fun h ↦ absurd h.2 hp.not_gt

theorem pieces_of_before (hprev : prevEnd ≤ content.length)
    (hrange : ∀ e ∈ es, InText content e.range) (hbefore : es.Pairwise Before)
    (hfrom : ∀ e ∈ es, prevEnd ≤ e.range.start) :
    pieces content prevEnd es = some (outFrom content es prevEnd (content.length + 1)) := by
  induction es generalizing prevEnd with
  | nil =>
    have hend : outAt content [] content.length = [] := by
      simp [outAt, texts, kept]
    rw [outFrom_append hprev (Nat.le_succ _), outFrom_before le_rfl (by simp),
      outFrom_succ (Nat.lt_succ_self _), hend, outFrom_self, pieces, slice, if_pos ⟨hprev, le_rfl⟩]
    simp
  | cons e es ih =>
    obtain ⟨hhead, htail⟩ := pairwise_cons.mp hbefore
    have he := hrange e mem_cons_self
    have hrange' : ∀ f ∈ es, InText content f.range :=
      fun f hf ↦ hrange f (mem_cons_of_mem e hf)
    have hstart : e.range.start ≤ content.length := he.1.trans he.2.1
    have hgap : outFrom content (e :: es) prevEnd e.range.start
        = (content.drop prevEnd).take (e.range.start - prevEnd) := by
      refine outFrom_before hstart fun f hf ↦ ?_
      rcases mem_cons.mp hf with rfl | hf
      · exact ⟨le_rfl, he.1⟩
      · exact ⟨he.1.trans (hhead f hf), (hrange' f hf).1⟩
    rw [outFrom_append (hfrom e mem_cons_self) (by omega), hgap,
      outFrom_cons he fun f hf ↦ ⟨hhead f hf, (hrange' f hf).1⟩, pieces,
      ih he.2.1 hrange' htail hhead, slice, if_pos ⟨hfrom e mem_cons_self, hstart⟩]
    simp

/-!
## Every order the sort may leave

Edits with one start are left in any order. The output is the simultaneous replacement for every
order exactly when two such edits are insertions whose texts commute, in a text and a list short
enough for an `unsigned`: a text of `2 ^ 32` characters or more is taken for a part of itself, and
the loop over as many edits never ends.
-/

variable {content input : List Char} {edits sorted es lo hi : List Edit} {e f x y : Edit}
  {p prevEnd : ℕ} {r : List Char}

/-- Two edits the order of which does not matter: with one start they are insertions, and their
texts are the same either way round. -/
def OrderFree (e f : Edit) : Prop :=
  e.range.start = f.range.start → e.range.stop = e.range.start ∧ f.range.stop = f.range.start ∧
    e.replacement ++ f.replacement = f.replacement ++ e.replacement

instance : DecidableRel OrderFree := fun _ _ ↦ inferInstanceAs (Decidable (_ → _))

theorem OrderFree.symm (h : OrderFree e f) : OrderFree f e := fun heq ↦
  ⟨(h heq.symm).2.1, (h heq.symm).1, (h heq.symm).2.2.symm⟩

/-! ## Any order of edits that are free of it -/

theorem flatMap_eq_of_perm {α β : Type*} {g : α → List β} {a b : List α} (hperm : a.Perm b)
    (hcomm : ∀ u ∈ a, ∀ v ∈ a, g u ++ g v = g v ++ g u) : a.flatMap g = b.flatMap g := by
  induction hperm with
  | nil => rfl
  | cons u _ ih =>
    rw [flatMap_cons, flatMap_cons, ih fun v hv w hw ↦
      hcomm v (mem_cons_of_mem u hv) w (mem_cons_of_mem u hw)]
  | swap u v l =>
    rw [flatMap_cons, flatMap_cons, flatMap_cons, flatMap_cons,
      ← append_assoc, ← append_assoc, hcomm v (by simp) u (by simp)]
  | trans hab _ ihab ihbc =>
    rw [ihab hcomm, ihbc fun u hu v hv ↦ hcomm u (hab.mem_iff.mpr hu) v (hab.mem_iff.mpr hv)]

theorem texts_eq_of_perm {kind : Edit → Prop} [DecidablePred kind] (hperm : sorted.Perm edits)
    (hstart : ∀ e, kind e → e.range.start = p) (hfree : edits.Pairwise OrderFree) :
    texts sorted kind = texts edits kind := by
  refine flatMap_eq_of_perm (hperm.filter _) fun u hu v hv ↦ ?_
  rw [mem_filter, decide_eq_true_eq, hperm.mem_iff] at hu hv
  by_cases huv : u = v
  · rw [huv]
  · have : Std.Symm OrderFree := ⟨fun _ _ h ↦ h.symm⟩
    have h := hfree.forall hu.1 hv.1 huv
    exact (h ((hstart u hu.2).trans (hstart v hv.2).symm)).2.2

theorem outAt_eq_of_perm (hperm : sorted.Perm edits) (hfree : edits.Pairwise OrderFree) :
    outAt content sorted p = outAt content edits p := by
  have hkept : kept content sorted p = kept content edits p := by
    simp only [kept, hperm.mem_iff]
  rw [outAt, outAt, hkept, texts_eq_of_perm hperm (fun _ h ↦ h.1) hfree,
    texts_eq_of_perm hperm (fun _ h ↦ h.1) hfree]

theorem before_of_sorted (hperm : sorted.Perm edits)
    (hsorted : sorted.Pairwise fun e f ↦ e.range.start ≤ f.range.start)
    (hrange : ∀ e ∈ edits, InText content e.range) (hapart : edits.Pairwise Apart)
    (hfree : edits.Pairwise OrderFree) : sorted.Pairwise Before := by
  have hapart' := (hperm.pairwise_iff fun h ↦ Apart.symm h).mpr hapart
  have hfree' := (hperm.pairwise_iff fun h ↦ OrderFree.symm h).mpr hfree
  refine (hsorted.and (hapart'.and hfree')).imp_of_mem fun {e f} _ hf ⟨hle, hdisj, hord⟩ ↦ ?_
  rcases hdisj with h | h
  · exact h
  · -- the second ends where the first starts, so both start there
    have hf := (hrange f (hperm.mem_iff.mp hf)).1
    have heq : e.range.start = f.range.start := by omega
    exact ((hord heq).1.trans heq).le

theorem pieces_of_sorted (hsort : SortsTo edits sorted)
    (hrange : ∀ e ∈ edits, InText content e.range) (hapart : edits.Pairwise Apart)
    (hfree : edits.Pairwise OrderFree) :
    pieces content 0 sorted = some (replaceAtOnce content edits) := by
  obtain ⟨hperm, hsorted⟩ := hsort
  rw [pieces_of_before (Nat.zero_le _) (fun e he ↦ hrange e (hperm.mem_iff.mp he))
    (before_of_sorted hperm hsorted hrange hapart hfree) fun _ _ ↦ Nat.zero_le _]
  exact congrArg some (outFrom_congr fun _ _ _ ↦ outAt_eq_of_perm hperm hfree)

/-! ## Two orders that both come out right -/

/-- The text up to a position. -/
def piecesTo (input : List Char) (p : ℕ) : ℕ → List Edit → Option (List Char)
  | prevEnd, [] => slice input prevEnd p
  | prevEnd, e :: es => do
    let between ← slice input prevEnd e.range.start
    let rest ← piecesTo input p e.range.stop es
    return between ++ e.replacement ++ rest

theorem pieces_append_cons (lo hi : List Edit) (prevEnd : ℕ) :
    pieces input prevEnd (lo ++ e :: hi) = do
      let front ← piecesTo input e.range.start prevEnd lo
      let back ← pieces input e.range.stop hi
      return front ++ e.replacement ++ back := by
  induction lo generalizing prevEnd with
  | nil => rfl
  | cons f lo ih =>
    rw [cons_append, pieces, piecesTo, ih]
    cases slice input prevEnd f.range.start with
    | none => rfl
    | some between =>
      cases piecesTo input e.range.start f.range.stop lo with
      | none => rfl
      | some front => cases pieces input e.range.stop hi <;> simp

theorem pieces_pair (h : pieces input prevEnd (lo ++ x :: y :: hi) = some r) :
    x.range.stop ≤ y.range.start ∧ ∃ front between back,
      piecesTo input x.range.start prevEnd lo = some front ∧
      slice input x.range.stop y.range.start = some between ∧
      pieces input y.range.stop hi = some back ∧
      r = front ++ x.replacement ++ (between ++ y.replacement ++ back) := by
  rw [pieces_append_cons, pieces] at h
  simp only [bind_eq_bind, bind_eq_some_iff, Option.pure_def, some.injEq] at h
  obtain ⟨front, hfront, rest, ⟨between, hbetween, back, hback, rfl⟩, rfl⟩ := h
  exact ⟨(slice_eq_some hbetween).1, front, between, back, hfront, hbetween, hback, rfl⟩

/-- Two edits with one start, next to each other in either order. -/
theorem orderFree_of_swap (he : e.range.start ≤ e.range.stop) (hf : f.range.start ≤ f.range.stop)
    (heq : e.range.start = f.range.start) (hef : pieces input prevEnd (lo ++ e :: f :: hi) = some r)
    (hfe : pieces input prevEnd (lo ++ f :: e :: hi) = some r) : OrderFree e f := by
  obtain ⟨hle, front, between, back, hfront, hbetween, hback, hr⟩ := pieces_pair hef
  obtain ⟨hle', front', between', back', hfront', hbetween', hback', hr'⟩ := pieces_pair hfe
  have hestop : e.range.stop = e.range.start := by omega
  have hfstop : f.range.stop = f.range.start := by omega
  have hnil : between = [] := by
    rw [(slice_eq_some hbetween).2.2, hestop, heq, Nat.sub_self, take_zero]
  have hnil' : between' = [] := by
    rw [(slice_eq_some hbetween').2.2, hfstop, heq, Nat.sub_self, take_zero]
  rw [heq, hfront'] at hfront
  rw [hfstop, ← heq, ← hestop, hback'] at hback
  obtain rfl := some_injective _ hfront
  obtain rfl := some_injective _ hback
  have htexts := hr.symm.trans hr'
  rw [hnil, hnil', nil_append, nil_append, append_assoc, append_assoc, append_cancel_left_eq,
    ← append_assoc, ← append_assoc, append_cancel_right_eq] at htexts
  exact fun _ ↦ ⟨hestop, hfstop, htexts⟩

/-- The starts, compared as `std::sort` is told to. -/
def startLE (e f : Edit) : Bool := e.range.start ≤ f.range.start

theorem sortsTo_mergeSort (edits : List Edit) : SortsTo edits (edits.mergeSort startLE) := by
  refine ⟨mergeSort_perm edits startLE, ?_⟩
  have htrans : ∀ a b c, startLE a b = true → startLE b c = true → startLE a c = true := by
    intro a b c hab hbc
    rw [startLE, decide_eq_true_eq] at hab hbc ⊢
    exact hab.trans hbc
  have htotal : ∀ a b, (startLE a b || startLE b a) = true := by
    intro a b
    rw [startLE, startLE, Bool.or_eq_true, decide_eq_true_eq, decide_eq_true_eq]
    exact Nat.le_total _ _
  exact (pairwise_mergeSort htrans htotal edits).imp fun hab ↦ by
    rwa [startLE, decide_eq_true_eq] at hab

/-- Any two edits with one start can be next to each other, in either order. -/
theorem exists_adjacent (hsub : [e, f].Sublist edits) (heq : e.range.start = f.range.start) :
    ∃ lo hi, SortsTo edits (lo ++ e :: f :: hi) ∧ SortsTo edits (lo ++ f :: e :: hi) := by
  obtain ⟨rest, hrest⟩ := hsub.exists_perm_append
  set p := e.range.start with hp
  set lo := (rest.filter (·.range.start < p)).mergeSort startLE
  set hi := (rest.filter fun u ↦ !decide (u.range.start < p)).mergeSort startLE
  have hlo := sortsTo_mergeSort (rest.filter (·.range.start < p))
  have hhi := sortsTo_mergeSort (rest.filter fun u ↦ !decide (u.range.start < p))
  have hlt : ∀ u ∈ lo, u.range.start < p := fun u hu ↦ by
    simpa using (mem_filter.mp (hlo.1.mem_iff.mp hu)).2
  have hge : ∀ u ∈ hi, p ≤ u.range.start := fun u hu ↦ by
    simpa using (mem_filter.mp (hhi.1.mem_iff.mp hu)).2
  have hparts : (lo ++ hi).Perm rest :=
    (hlo.1.append hhi.1).trans (filter_append_perm _ rest)
  -- the two share their start, so that the order between them is free
  have hsort : ∀ u v : Edit, u.range.start = p → v.range.start = p → [u, v].Perm [e, f] →
      SortsTo edits (lo ++ u :: v :: hi) := by
    intro u v hu hv huv
    refine ⟨?_, ?_⟩
    · have hmove : (lo ++ u :: v :: hi).Perm ([u, v] ++ (lo ++ hi)) :=
        perm_append_comm_assoc lo [u, v] hi
      exact hmove.trans ((huv.append hparts).trans hrest.symm)
    · rw [pairwise_append, pairwise_cons, pairwise_cons]
      refine ⟨hlo.2, ⟨fun w hw ↦ ?_, fun w hw ↦ ?_, hhi.2⟩, fun w hw z hz ↦ ?_⟩
      · rcases mem_cons.mp hw with rfl | hw
        · rw [hu, hv]
        · exact hu ▸ hge w hw
      · exact hv ▸ hge w hw
      · have hw := hlt w hw
        rcases mem_cons.mp hz with rfl | hz
        · omega
        · rcases mem_cons.mp hz with rfl | hz
          · omega
          · exact hw.le.trans (hge z hz)
  exact ⟨lo, hi, hsort e f rfl heq.symm (List.Perm.refl _),
    hsort f e heq.symm rfl (List.Perm.swap _ _ _)⟩

theorem orderFree_of_forall (hrange : ∀ e ∈ edits, InText content e.range)
    (h : ∀ sorted, SortsTo edits sorted → pieces content 0 sorted = some r) :
    edits.Pairwise OrderFree := by
  rw [pairwise_iff_forall_sublist]
  intro e f hsub heq
  obtain ⟨lo, hi, hef, hfe⟩ := exists_adjacent hsub heq
  have he := (hrange e (hsub.subset (by simp))).1
  have hf := (hrange f (hsub.subset (by simp))).1
  exact orderFree_of_swap he hf heq (h _ hef) (h _ hfe) heq

/-! ## Texts too long for a position -/

/-- How much the edits put in. -/
def added (edits : List Edit) : ℕ := (edits.map (·.replacement.length)).sum

theorem added_cons (e : Edit) (es : List Edit) :
    added (e :: es) = e.replacement.length + added es := rfl

theorem length_pieces_le (hrange : ∀ e ∈ es, e.range.start ≤ e.range.stop)
    (h : pieces input prevEnd es = some r) : r.length + prevEnd ≤ input.length + added es := by
  induction es generalizing prevEnd r with
  | nil =>
    obtain ⟨hle, -, rfl⟩ := slice_eq_some h
    rw [length_take, length_drop]
    omega
  | cons e es ih =>
    rw [pieces] at h
    simp only [bind_eq_bind, bind_eq_some_iff, Option.pure_def, some.injEq] at h
    obtain ⟨between, hbetween, rest, hrest, rfl⟩ := h
    obtain ⟨hle, hstart, rfl⟩ := slice_eq_some hbetween
    have hrest := ih (fun f hf ↦ hrange f (List.mem_cons_of_mem e hf)) hrest
    have he := hrange e List.mem_cons_self
    rw [length_append, length_append, length_take, length_drop, added_cons]
    omega

/-- What the edits that start at a position put in. -/
def addedAt (edits : List Edit) (p : ℕ) : ℕ :=
  (edits.map fun e ↦ if e.range.start = p then e.replacement.length else 0).sum

theorem length_texts (hrange : ∀ e ∈ es, e.range.start ≤ e.range.stop) :
    (texts es (InsertsAt · p)).length + (texts es (ReplacesAt · p)).length = addedAt es p := by
  induction es with
  | nil => rfl
  | cons e es ih =>
    have ih := ih fun f hf ↦ hrange f (mem_cons_of_mem e hf)
    have hle := hrange e mem_cons_self
    have hadded : addedAt (e :: es) p
        = (if e.range.start = p then e.replacement.length else 0) + addedAt es p := rfl
    rw [hadded]
    by_cases hstart : e.range.start = p
    · rw [if_pos hstart]
      rcases (hstart ▸ hle : p ≤ e.range.stop).eq_or_lt with hstop | hstop
      · rw [texts_cons_of_pos es (show InsertsAt e p from ⟨hstart, hstop.symm⟩),
          texts_cons_of_neg es fun h ↦ h.2.ne hstop, length_append]
        omega
      · have hreplaces : texts (e :: es) (ReplacesAt · p)
            = e.replacement ++ texts es (ReplacesAt · p) := texts_cons_of_pos es ⟨hstart, hstop⟩
        rw [hreplaces, texts_cons_of_neg es fun h ↦ hstop.ne' h.2, length_append]
        omega
    · rw [texts_cons_of_neg es fun h ↦ hstart h.1, texts_cons_of_neg es fun h ↦ hstart h.1,
        if_neg hstart]
      omega

theorem sum_addedAt {n : ℕ} (hstart : ∀ e ∈ es, e.range.start < n) :
    ∑ p ∈ Finset.range n, addedAt es p = added es := by
  induction es with
  | nil => simp [addedAt, added]
  | cons e es ih =>
    have he : e.range.start ∈ Finset.range n := Finset.mem_range.mpr (hstart e mem_cons_self)
    have hadded : ∀ p, addedAt (e :: es) p
        = (if e.range.start = p then e.replacement.length else 0) + addedAt es p := fun _ ↦ rfl
    simp only [hadded]
    rw [Finset.sum_add_distrib, Finset.sum_ite_eq, if_pos he,
      ih fun f hf ↦ hstart f (mem_cons_of_mem e hf), added_cons]

/-- Behind the last position an edit can end at, every character is kept. -/
theorem le_length_replaceAtOnce (hrange : ∀ e ∈ es, InText content e.range) :
    added es + (content.length - (2 ^ 32 - 1)) ≤ (replaceAtOnce content es).length := by
  have hlength : (replaceAtOnce content es).length
      = ∑ p ∈ Finset.range (content.length + 1), (addedAt es p + (kept content es p).length) := by
    rw [replaceAtOnce, outFrom, length_flatMap, Nat.sub_zero, ← range_eq_range']
    refine (Finset.sum_congr rfl fun p _ ↦ ?_ : ∑ p ∈ Finset.range (content.length + 1),
      (outAt content es p).length = _)
    rw [outAt, length_append, length_append, length_texts fun e he ↦ (hrange e he).1]
  have hkept : ∀ p ∈ Finset.Ico (2 ^ 32 - 1) content.length, 1 ≤ (kept content es p).length := by
    intro p hp
    rw [Finset.mem_Ico] at hp
    have hcovers : ∀ e ∈ es, ¬Covers e p := by
      rintro e he ⟨-, h⟩
      have := (hrange e he).2.2
      omega
    rw [kept_of_not_covers hcovers, getElem?_eq_getElem hp.2]
    rfl
  have hsub : Finset.Ico (2 ^ 32 - 1) content.length ⊆ Finset.range (content.length + 1) := by
    intro p hp
    rw [Finset.mem_Ico] at hp
    rw [Finset.mem_range]
    omega
  have hcount : content.length - (2 ^ 32 - 1)
      ≤ ∑ p ∈ Finset.range (content.length + 1), (kept content es p).length :=
    calc content.length - (2 ^ 32 - 1)
        = ∑ _p ∈ Finset.Ico (2 ^ 32 - 1) content.length, 1 := by simp
      _ ≤ ∑ p ∈ Finset.Ico (2 ^ 32 - 1) content.length, (kept content es p).length :=
          Finset.sum_le_sum hkept
      _ ≤ ∑ p ∈ Finset.range (content.length + 1), (kept content es p).length :=
          Finset.sum_le_sum_of_subset hsub
  have hstart : ∀ e ∈ es, e.range.start < content.length + 1 := fun e he ↦ by
    have := hrange e he
    rw [InText] at this
    omega
  rw [hlength, Finset.sum_add_distrib, sum_addedAt hstart]
  omega

theorem added_le_of_sublist (h : es.Sublist edits) : added es ≤ added edits :=
  (h.map _).sum_le_sum fun _ _ ↦ Nat.zero_le _

theorem added_eq_of_perm (h : sorted.Perm edits) : added sorted = added edits :=
  (h.map _).sum_eq

end Banjo.EditList
