import CipherCorpus.Proofs.FileTree.Change
import CipherCorpus.Proofs.FileTree.Under
import Mathlib.Data.List.TakeWhile

/-!
# Steps of a path

A `.` in a path leads nowhere, so where a path leads depends on its start and on its other names only, its
`steps` (`Leads.congr`).  The steps of the parent of a path are all but the last, and those of every
ancestor stand at the front (`steps_of_parent?`, `steps_of_mem_ancestors`).

What is made together with a directory is therefore where the ancestors of its path lead:

    t.makeDirectories cwd p = .ok t' → t'.get? k ≠ t.get? k → ∃ q ∈ p.ancestors, Leads t' cwd q k
                                                                     (leads_of_makeDirectories_changed)
-/

namespace CipherCorpus.FileTree

open Text CipherCorpus.Path

variable {t t' : FileTree} {f : Bool} {cwd place k : Key} {xs ys : List String} {p q : Path}

/-! ## Dots -/

/-- The names that lead somewhere. -/
def stepsOf (ns : List String) : List String := ns.filter (· ≠ ".")

/-- Two stops at one place, or at one link with the same steps behind it. -/
inductive Stop.Alike : Stop → Stop → Prop where
  | place (pl : Place) : Alike (.place pl) (.place pl)
  | link {base target rest rest'} : stepsOf rest = stepsOf rest' →
      Alike (.link base target rest) (.link base target rest')

theorem scans_dots {dots : List String} (hd : ∀ d ∈ dots, d = ".") {s : Stop} :
    Scans t f place (dots ++ xs) s ↔ Scans t f place xs s := by
  induction dots with
  | nil => exact Iff.rfl
  | cons d rest ih =>
    obtain ⟨rfl, hrest⟩ := List.forall_mem_cons.mp hd
    rw [List.cons_append, scans_here, ih hrest]

/-- Names with a first step are dots, the step, and what is behind it. -/
theorem exists_of_stepsOf_cons {n : String} {ns : List String} (h : n :: ns = stepsOf ys) :
    ∃ dots rest, ys = dots ++ n :: rest ∧ (∀ d ∈ dots, d = ".") ∧ ns = stepsOf rest := by
  obtain ⟨dots, rest, hy, hdots, -, hrest⟩ := List.filter_eq_cons_iff.mp h.symm
  exact ⟨dots, rest, hy, fun d hd => by simpa using hdots d hd, hrest.symm⟩

theorem stepsOf_cons_of_ne {n : String} (hn : n ≠ ".") (ns : List String) :
    stepsOf (n :: ns) = n :: stepsOf ns := by
  unfold stepsOf
  simp [hn]

theorem stepsOf_append (xs ys : List String) : stepsOf (xs ++ ys) = stepsOf xs ++ stepsOf ys :=
  List.filter_append ..

/-- A scan to a directory or to a link depends on the steps only. -/
theorem Scans.of_steps {s : Stop} (h : Scans t true place xs s)
    (hs : ∀ pl, s = .place pl → ∃ k, pl = .present k .directory) :
    ∀ {ys}, stepsOf xs = stepsOf ys → ∃ s', Scans t true place ys s' ∧ s.Alike s' := by
  induction h with
  | done place =>
    intro ys hy
    have hdots : ∀ d ∈ ys, d = "." := fun d hd => by
      simpa using List.filter_eq_nil_iff.mp hy.symm d hd
    have hscan := (scans_dots hdots).mpr (Scans.done (t := t) (f := true) place)
    rw [List.append_nil] at hscan
    exact ⟨_, hscan, .place _⟩
  | here _ ih => exact ih hs
  | up _ ih =>
    intro ys hy
    rw [stepsOf_cons_of_ne (by decide)] at hy
    obtain ⟨dots, rest, rfl, hdots, hrest⟩ := exists_of_stepsOf_cons hy
    obtain ⟨s', hscan, ha⟩ := ih hs hrest
    exact ⟨s', (scans_dots hdots).mpr (.up hscan), ha⟩
  | free =>
    obtain ⟨k, hk⟩ := hs _ rfl
    cases hk
  | file =>
    obtain ⟨k, hk⟩ := hs _ rfl
    cases hk
  | directory hx hg _ ih =>
    intro ys hy
    rw [stepsOf_cons_of_ne hx.notHere] at hy
    obtain ⟨dots, rest, rfl, hdots, hrest⟩ := exists_of_stepsOf_cons hy
    obtain ⟨s', hscan, ha⟩ := ih hs hrest
    exact ⟨s', (scans_dots hdots).mpr (.directory hx hg hscan), ha⟩
  | lastLink =>
    obtain ⟨k, hk⟩ := hs _ rfl
    cases hk
  | link hx hg _ =>
    intro ys hy
    rw [stepsOf_cons_of_ne hx.notHere] at hy
    obtain ⟨dots, rest, rfl, hdots, hrest⟩ := exists_of_stepsOf_cons hy
    exact ⟨_, (scans_dots hdots).mpr (.link hx hg fun _ => rfl), .link hrest⟩

theorem Walks.of_steps {n : Nat} (h : Walks t true n place xs (.present k .directory))
    (hy : stepsOf xs = stepsOf ys) : Walks t true n place ys (.present k .directory) := by
  generalize he : Place.present k .directory = pl at h
  induction h generalizing ys with
  | place h =>
    subst he
    obtain ⟨s', hscan, ha⟩ := h.of_steps (fun pl hpl => ⟨k, (Stop.place.inj hpl).symm⟩) hy
    cases ha
    exact .place hscan
  | link h _ ih =>
    obtain ⟨s', hscan, ha⟩ := h.of_steps nofun hy
    cases ha with
    | link hrest => exact .link hscan (ih (by rw [stepsOf_append, stepsOf_append, hrest]) he)

/-- The names of a path that lead somewhere. -/
def steps (p : Path) : List String := stepsOf (pathNames p.text.toList)

/-- Paths with one start and the same steps lead to the same directories. -/
theorem Leads.congr (hstart : startOf cwd p.text.toList = startOf cwd q.text.toList)
    (hsteps : steps p = steps q) : Leads t cwd p k ↔ Leads t cwd q k := by
  constructor
  · rintro ⟨n, hn, h⟩
    exact ⟨n, hn, hstart ▸ h.of_steps hsteps⟩
  · rintro ⟨n, hn, h⟩
    exact ⟨n, hn, hstart ▸ h.of_steps hsteps.symm⟩

theorem stepsOf_walkNames (text : List Char) : stepsOf (walkNames text) = stepsOf (pathNames text) := by
  rcases walkNames_eq text with h | h
  · rw [h]
  · rw [h, stepsOf_append]
    exact List.append_nil _

/-- A path whose steps stand at the front of those of another one leads somewhere, too. -/
theorem Leads.of_prefix (h : Leads t cwd p k) (hstart : startOf cwd q.text.toList = startOf cwd p.text.toList)
    (hsteps : steps q <+: steps p) : ∃ j, Leads t cwd q j := by
  obtain ⟨rest, hrest⟩ := hsteps
  obtain ⟨n, hn, hw⟩ := h
  by_cases hne : rest = []
  · subst hne
    rw [List.append_nil] at hrest
    exact ⟨k, (Leads.congr hstart hrest).mpr ⟨n, hn, hw⟩⟩
  · have hsame : stepsOf (pathNames p.text.toList) = stepsOf (pathNames q.text.toList ++ rest) := by
      rw [stepsOf_append]
      have hr : stepsOf rest = rest := by
        refine List.filter_eq_self.mpr fun d hd => ?_
        have hm : d ∈ steps p := hrest ▸ List.mem_append_right _ hd
        exact (List.mem_filter.mp hm).2
      rw [hr]
      exact hrest.symm
    obtain ⟨j, m, more, hm, hj, -⟩ := (hw.of_steps hsame).split hne
    exact ⟨j, m, by omega, hstart ▸ hj⟩

/-! ## Parents and ancestors -/

/-- The steps of a path that is written as these pieces. -/
theorem steps_eq_pieces (p : Path) :
    steps p = (p.pieces.filter (!isFiller ·)).map String.ofList := by
  unfold steps stepsOf pathNames Path.pieces
  rw [List.filter_map, List.filter_filter]
  refine congrArg (List.map String.ofList) (List.filter_congr fun piece _ => ?_)
  have hdot : String.ofList piece = "." ↔ piece = ['.'] := by
    rw [← String.toList_inj, String.toList_ofList]
    rfl
  rw [Bool.eq_iff_iff]
  simp [isFiller, hdot, and_comm]

theorem steps_child (p : Path) {n : String} (hn : IsEntryName n.toList) :
    steps (p.child n) = steps p ++ [n] := by
  unfold steps
  rw [pathNames_child p (isStep_of_isEntryName hn), stepsOf_append, stepsOf_cons_of_ne]
  · rfl
  · rintro rfl
    exact hn.2.2.1 rfl

theorem steps_empty : steps ⟨""⟩ = [] := rfl

theorem pieces_ne_nil (p : Path) : p.pieces ≠ [] := splitOn_ne_nil _ _

/-- A path is absolute when it has an empty piece in front. -/
theorem isAbsolute_iff (p : Path) : p.isAbsolute = true ↔ ∃ piece rest, p.pieces = [] :: piece :: rest := by
  unfold isAbsolute Path.pieces
  cases p.text.toList with
  | nil =>
    constructor
    · nofun
    · rintro ⟨piece, rest, h⟩
      cases h
  | cons c rest =>
    by_cases hc : c = '/'
    · subst hc
      obtain ⟨piece, more, h⟩ := List.exists_cons_of_ne_nil (splitOn_ne_nil '/' rest)
      rw [splitOn, if_pos rfl, h]
      simp
    · rw [splitOn, if_neg hc]
      cases hs : splitOn '/' rest with
      | nil => exact absurd hs (splitOn_ne_nil '/' rest)
      | cons piece more => simp [hc]

theorem pieces_ofList_joinWith {pieces : List (List Char)} (hne : pieces ≠ [])
    (h : ∀ piece ∈ pieces, '/' ∉ piece) :
    (Path.mk (String.ofList (joinWith '/' pieces))).pieces = pieces := by
  unfold Path.pieces
  rw [String.toList_ofList, splitOn_joinWith hne h]

theorem filter_trimFiller (l : List (List Char)) :
    (trimFiller l).filter (!isFiller ·) = l.filter (!isFiller ·) := by
  induction l with
  | nil => rfl
  | cons last more ih =>
    cases more with
    | nil => rfl
    | cons next more =>
      rw [trimFiller]
      · split
        · next hf => exact ih.trans (List.filter_cons_of_neg (by simpa using hf)).symm
        · rfl
      · exact fun he => by cases he

theorem trimFiller_suffix (l : List (List Char)) : trimFiller l <:+ l := by
  induction l with
  | nil => exact List.suffix_refl _
  | cons last more ih =>
    cases more with
    | nil => exact List.suffix_refl _
    | cons next more =>
      rw [trimFiller]
      · split
        · exact ih.trans (List.suffix_cons _ _)
        · exact List.suffix_refl _
      · exact fun he => by cases he

theorem trimFiller_ne_nil {l : List (List Char)} (h : l ≠ []) : trimFiller l ≠ [] := by
  induction l with
  | nil => exact absurd rfl h
  | cons last more ih =>
    cases more with
    | nil => exact h
    | cons next more =>
      rw [trimFiller]
      · split
        · exact ih (by simp)
        · simp
      · exact fun he => by cases he

/-- More than one piece is left only behind a piece that is a step. -/
theorem not_isFiller_of_trimFiller {l more : List (List Char)} {last : List Char} (hne : more ≠ [])
    (h : trimFiller l = last :: more) : isFiller last = false := by
  induction l with
  | nil => cases h
  | cons first rest ih =>
    cases rest with
    | nil =>
      obtain ⟨-, rfl⟩ := List.cons.inj h
      exact absurd rfl hne
    | cons next rest =>
      rw [trimFiller] at h
      · split at h
        · exact ih h
        · next hf =>
          obtain ⟨rfl, -⟩ := List.cons.inj h
          simpa using hf
      · exact fun he => by cases he

theorem not_isAbsolute_of_pieces {piece : List Char} {rest : List (List Char)}
    (h : p.pieces = piece :: rest) (hp : piece ≠ []) : p.isAbsolute = false := by
  rw [← Bool.not_eq_true, isAbsolute_iff]
  rintro ⟨_, _, he⟩
  exact hp (List.cons.inj (h.symm.trans he)).1

/-- The parent of a path has its start and all its steps but the last. -/
theorem steps_of_parent? (h : p.parent? = some q) :
    q.isAbsolute = p.isAbsolute ∧ steps q = (steps p).dropLast := by
  have hsep : ∀ piece ∈ p.pieces, '/' ∉ piece := fun piece hm => notMem_of_mem_splitOn hm
  have hsteps : steps p = ((p.significant.filter (!isFiller ·)).map String.ofList).reverse := by
    rw [steps_eq_pieces, significant, filter_trimFiller, List.filter_reverse, List.map_reverse,
      List.reverse_reverse]
  obtain ⟨front, hfront⟩ := trimFiller_suffix p.pieces.reverse
  have hpieces : p.pieces = p.significant.reverse ++ front.reverse := by
    rw [← List.reverse_append]
    exact List.reverse_eq_iff.mp hfront.symm
  unfold parent? at h
  split at h
  · cases h
  · next only hs =>
    split at h
    · cases h
    · next ho =>
      cases h
      rw [hs] at hpieces hsteps
      refine ⟨(not_isAbsolute_of_pieces hpieces (by simpa using ho)).symm, ?_⟩
      rw [hsteps]
      cases hf : isFiller only with
      | true => simp [hf, steps_empty]
      | false => simp [hf, steps_empty]
  · next last more hne hs =>
    have hmore : more ≠ [] := hne
    have hlast : isFiller last = false := not_isFiller_of_trimFiller hmore hs
    rw [hs] at hpieces hsteps
    obtain ⟨cut, hcut⟩ := trimFiller_suffix more
    -- the pieces of the path begin with those that are kept
    have hkept : p.pieces = (trimFiller more).reverse ++ (cut.reverse ++ last :: front.reverse) := by
      have hreverse : more.reverse = (trimFiller more).reverse ++ cut.reverse := by
        rw [← List.reverse_append, hcut]
      rw [hpieces, List.reverse_cons, hreverse]
      simp
    have hdrop : (steps p).dropLast =
        (((trimFiller more).filter (!isFiller ·)).map String.ofList).reverse := by
      rw [hsteps, List.filter_cons_of_pos (by simp [hlast]), List.map_cons, List.reverse_cons,
        List.dropLast_concat, filter_trimFiller]
    split at h
    · next hroot =>
      cases h
      rw [hroot] at hkept hdrop
      refine ⟨((isAbsolute_iff p).mpr ?_).symm, hdrop.symm⟩
      obtain ⟨piece, rest, hr⟩ := List.exists_cons_of_ne_nil
        (show cut.reverse ++ last :: front.reverse ≠ [] by simp)
      exact ⟨piece, rest, by rw [hkept, hr]; rfl⟩
    · next hroot =>
      cases h
      have hq : (Path.mk (String.ofList (joinWith '/' (trimFiller more).reverse))).pieces =
          (trimFiller more).reverse := by
        refine pieces_ofList_joinWith (by simpa using trimFiller_ne_nil hmore) fun piece hm => hsep piece ?_
        rw [hkept]
        exact List.mem_append_left _ hm
      refine ⟨?_, ?_⟩
      · rw [Bool.eq_iff_iff, isAbsolute_iff, isAbsolute_iff, hq, hkept]
        cases hr : (trimFiller more).reverse with
        | nil => exact absurd (List.reverse_eq_nil_iff.mp hr) (trimFiller_ne_nil hmore)
        | cons first rest =>
          cases rest with
          | nil =>
            have hfirst : first ≠ [] := by
              rintro rfl
              exact hroot (List.reverse_eq_iff.mp hr)
            constructor
            · rintro ⟨_, _, he⟩
              cases he
            · rintro ⟨_, _, he⟩
              exact absurd (List.cons.inj he).1 hfirst
          | cons second rest => simp
      · rw [hdrop, steps_eq_pieces, hq, List.filter_reverse, List.map_reverse]

theorem steps_of_mem_go (n : Nat) : ∀ {p q : Path}, q ∈ ancestors.go n p →
    q.isAbsolute = p.isAbsolute ∧ steps q <+: steps p := by
  induction n with
  | zero =>
    intro p q hq
    rw [List.mem_singleton.mp hq]
    exact ⟨rfl, List.prefix_refl _⟩
  | succ n ih =>
    intro p q hq
    rw [ancestors.go] at hq
    split at hq
    · next up hup =>
      rcases List.mem_cons.mp hq with rfl | hq
      · exact ⟨rfl, List.prefix_refl _⟩
      · obtain ⟨habs, hsteps⟩ := ih hq
        obtain ⟨habs', hsteps'⟩ := steps_of_parent? hup
        exact ⟨habs.trans habs', hsteps.trans (hsteps' ▸ List.dropLast_prefix _)⟩
    · rw [List.mem_singleton.mp hq]
      exact ⟨rfl, List.prefix_refl _⟩

/-- The steps of an ancestor stand at the front of those of the path; it has the same start. -/
theorem steps_of_mem_ancestors (h : q ∈ p.ancestors) : q.isAbsolute = p.isAbsolute ∧ steps q <+: steps p :=
  steps_of_mem_go _ h

/-- The proper ancestors of a child have steps of the path that it is a child of. -/
theorem eq_or_steps_of_mem_ancestors_child {n : String} (hn : IsEntryName n.toList)
    (h : q ∈ (p.child n).ancestors) :
    q = p.child n ∨ q.isAbsolute = (p.child n).isAbsolute ∧ steps q <+: steps p := by
  unfold ancestors at h
  cases hl : (p.child n).pieces.length with
  | zero => exact absurd (List.length_eq_zero_iff.mp hl) (pieces_ne_nil _)
  | succ m =>
    rw [hl, ancestors.go] at h
    split at h
    · next up hup =>
      rcases List.mem_cons.mp h with h | h
      · exact Or.inl h
      · obtain ⟨habs, hsteps⟩ := steps_of_mem_go m h
        obtain ⟨habs', hsteps'⟩ := steps_of_parent? hup
        rw [steps_child p hn, List.dropLast_concat] at hsteps'
        exact Or.inr ⟨habs.trans habs', hsteps' ▸ hsteps⟩
    · exact Or.inl (List.mem_singleton.mp h)

/-! ## Making directories -/

/-- Names of a text do not depend on separators at its end. -/
theorem pathNames_append_seps (l : List Char) {seps : List Char} (h : ∀ c ∈ seps, c = '/') :
    pathNames (l ++ seps) = pathNames l := by
  induction seps generalizing l with
  | nil => rw [List.append_nil]
  | cons c rest ih =>
    obtain ⟨rfl, hrest⟩ := List.forall_mem_cons.mp h
    have hnil := ih [] hrest
    rw [List.nil_append] at hnil
    rw [pathNames_append_sep, hnil]
    exact List.append_nil _

/-- A separator at the end is the whole difference that no name makes. -/
theorem toList_child_empty (p : Path) : ∃ seps : List Char, (∀ c ∈ seps, c = '/') ∧
    (p.child "").text.toList = p.text.toList ++ seps ∧ (p.text.toList = [] → seps = []) := by
  have hlead : (p.child "").text.toList = p.lead := (toList_child p (by decide)).trans (List.append_nil _)
  rw [hlead]
  unfold lead
  split
  · exact ⟨[], by simp, (List.append_nil _).symm, fun _ => rfl⟩
  · next hcond =>
    refine ⟨['/'], by simp, rfl, fun hnil => absurd ?_ hcond⟩
    simp [String.toList_eq_nil_iff.mp hnil]

theorem startOf_child_empty (cwd : Key) (p : Path) :
    startOf cwd (p.child "").text.toList = startOf cwd p.text.toList := by
  obtain ⟨seps, -, htext, hnil⟩ := toList_child_empty p
  rw [htext]
  cases htoList : p.text.toList with
  | nil => rw [hnil htoList, List.append_nil]
  | cons c rest => rfl

/-- No name adds no step. -/
theorem Leads.child_empty : Leads t cwd (p.child "") k ↔ Leads t cwd p k := by
  refine Leads.congr (startOf_child_empty cwd p) ?_
  obtain ⟨seps, hseps, htext, -⟩ := toList_child_empty p
  unfold steps
  rw [htext, pathNames_append_seps _ hseps]

/-- Separators at the end of a path do not matter for where it leads. -/
theorem steps_withoutSeparator (p : Path) :
    (withoutSeparator p).isAbsolute = p.isAbsolute ∧ steps (withoutSeparator p) = steps p := by
  unfold withoutSeparator
  dsimp only
  split
  · exact ⟨rfl, rfl⟩
  · next hkept =>
    have htext : p.text.toList = (p.text.toList.reverse.dropWhile (· == '/')).reverse ++
        (p.text.toList.reverse.takeWhile (· == '/')).reverse := by
      rw [← List.reverse_append, List.takeWhile_append_dropWhile, List.reverse_reverse]
    have hseps : ∀ c ∈ (p.text.toList.reverse.takeWhile (· == '/')).reverse, c = '/' := fun c hc => by
      simpa using List.mem_takeWhile_imp (List.mem_reverse.mp hc)
    generalize (p.text.toList.reverse.dropWhile (· == '/')).reverse = kept at hkept htext
    refine ⟨?_, ?_⟩
    · unfold isAbsolute
      rw [String.toList_ofList, htext]
      cases kept with
      | nil => exact absurd rfl hkept
      | cons c rest => rfl
    · unfold steps
      rw [String.toList_ofList, htext, pathNames_append_seps kept hseps]

/-- Where ancestors of a path start, the path itself starts. -/
theorem startOf_of_mem_ancestors (h : q ∈ p.ancestors) (cwd : Key) :
    startOf cwd (withoutSeparator q).text.toList = startOf cwd p.text.toList :=
  startOf_eq_of_isAbsolute ((steps_withoutSeparator q).1.trans (steps_of_mem_ancestors h).1) cwd

/-- What is changed by making a chain of directories are directories that paths of the chain lead to. -/
theorem leads_of_makeChain_changed (ps : List Path) : ∀ {t' : FileTree}, t.makeChain cwd ps = .ok t' →
    t'.get? k ≠ t.get? k → ∃ q ∈ ps, Leads t' cwd q k := by
  induction ps with
  | nil =>
    intro t' h
    cases h
  | cons p parents ih =>
    intro t' h hk
    obtain ⟨t1, hchain, hp⟩ := makeChain_cases h
    have hrest : t1.get? k ≠ t.get? k → ∃ q ∈ p :: parents, Leads t1 cwd q k := by
      intro hk1
      rcases hchain with rfl | hchain
      · exact absurd rfl hk1
      · obtain ⟨q, hq, hl⟩ := ih hchain hk1
        exact ⟨q, List.mem_cons_of_mem _ hq, hl⟩
    rcases hp with ⟨-, rfl⟩ | hm | ⟨rfl, -⟩
    · exact hrest hk
    · have hc := changesOnly_makeDirectory hm
      by_cases hk1 : t'.get? k = t1.get? k
      · obtain ⟨q, hq, hl⟩ := hrest (hk1 ▸ hk)
        exact ⟨q, hq, hl.grow (fun j hj => hc.get?_eq id hj) fun j target => (hc.links j target).mpr⟩
      · refine ⟨p, List.mem_cons_self, ?_⟩
        unfold makeDirectory at hm
        cases hr : t1.resolve cwd false (withoutSeparator p) with
        | error e =>
          rw [hr] at hm
          cases hm
        | ok place =>
          rw [hr] at hm
          cases place with
          | present key e => cases hm
          | absent key =>
            cases hm
            obtain rfl : k = key := Decidable.byContradiction fun hne => hk1 (get?_put_ne _ _ hne)
            obtain ⟨-, d, n, hkey, -⟩ := sound_of_resolve hr
            obtain ⟨-, m, hlim, hw⟩ := resolve_iff.mp hr
            have hw' := hw.grow (fun j hj => hc.get?_eq id hj) (fun j target => (hc.links j target).mpr)
              (get?_put_self t1 .directory (by simp [hkey]))
            obtain ⟨habs, hsteps⟩ := steps_withoutSeparator p
            exact (Leads.congr (startOf_eq_of_isAbsolute habs cwd) hsteps).mp
              ⟨m, hlim, hw'.of_steps (stepsOf_walkNames _)⟩
    · exact hrest hk

theorem leads_of_makeDirectories_changed (h : t.makeDirectories cwd p = .ok t')
    (hk : t'.get? k ≠ t.get? k) : ∃ q ∈ p.ancestors, Leads t' cwd q k :=
  leads_of_makeChain_changed _ h hk

end CipherCorpus.FileTree
