import UtilityCss.Proofs.CompiledTree
import UtilityCss.Proofs.UsedNames

/-!
The order of definitions. In each round the bodies that are ready are expanded as if all of them
were expanded in the system that the round began with, since none uses the name of another. So a
round depends on which utilities are waiting and not on their order, and the same holds of all
rounds.
-/
namespace UtilityCss

theorem Except.mapM_eq_ok_iff {ε α β : Type} {f : α → Except ε β} {xs : List α} {ys : List β} :
    xs.mapM f = .ok ys ↔ List.Forall₂ (fun x y => f x = .ok y) xs ys := by
  induction xs generalizing ys with
  | nil =>
    rw [List.forall₂_nil_left_iff]
    constructor
    · intro h
      cases h
      rfl
    · rintro rfl
      rfl
  | cons x xs ih =>
    rw [List.mapM_cons, List.forall₂_cons_left_iff]
    constructor
    · intro h
      obtain ⟨y, hy, h⟩ := Except.exists_of_bind h
      obtain ⟨zs, hzs, h⟩ := Except.exists_of_bind h
      cases h
      exact ⟨y, zs, hy, ih.1 hzs, rfl⟩
    · rintro ⟨y, zs, hy, hzs, rfl⟩
      rw [hy, ih.2 hzs]
      rfl

namespace DesignSystem

variable {d d' : DesignSystem} {names : List String} {pending : List (String × List Node)}

def expandBodies (d : DesignSystem) (entries : List (String × List Node)) :
    Except Error (List (String × List Node)) :=
  entries.mapM fun entry => (substituteAllApply d entry.2).result.map (entry.1, ·)

theorem expandBodies_cons (d : DesignSystem) (entry : String × List Node)
    (entries : List (String × List Node)) :
    d.expandBodies (entry :: entries) = (substituteAllApply d entry.2).result.bind fun body =>
      (d.expandBodies entries).map ((entry.1, body) :: ·) := by
  simp only [expandBodies, List.mapM_cons]
  cases (substituteAllApply d entry.2).result with
  | error e => rfl
  | ok body => cases entries.mapM fun e => (substituteAllApply d e.2).result.map (e.1, ·) <;> rfl

def addBodies (d : DesignSystem) (bodies : List (String × List Node)) : DesignSystem :=
  bodies.foldl (fun d entry => d.addUtility entry.1 (.ofBody entry.2)) d

def readyAmong (pending : List (String × List Node)) : List (String × List Node) :=
  pending.filter fun entry => isReady (pending.map Prod.fst) entry.2

def waitingAmong (pending : List (String × List Node)) : List (String × List Node) :=
  pending.filter fun entry => !isReady (pending.map Prod.fst) entry.2

/-- At most `n` rounds; `none` if utilities are waiting behind the last one. The bodies that are
ready are expanded in the system that the round begins with. -/
def defineRounds : Nat → DesignSystem → List (String × List Node) →
    Option (Except Error DesignSystem)
  | _, d, [] => some (.ok d)
  | 0, _, _ :: _ => none
  | n + 1, d, entry :: rest =>
    if (readyAmong (entry :: rest)).isEmpty then some (.error (.circularApply entry.1))
    else match d.expandBodies (readyAmong (entry :: rest)) with
      | .error e => some (.error e)
      | .ok bodies => defineRounds n (d.addBodies bodies) (waitingAmong (entry :: rest))

/-! ### Rounds -/

theorem DiffersOn.refl (names : List String) (d : DesignSystem) : d.DiffersOn names d :=
  ⟨rfl, rfl, rfl, rfl, fun _ _ => rfl, fun _ => rfl⟩

theorem DiffersOn.addBody (h : d.DiffersOn names d') {name : String} (hname : name ∈ names)
    (body : List Node) : d.DiffersOn names (d'.addUtility name (.ofBody body)) where
  theme := h.theme
  variants := h.variants
  important := h.important
  invalid := h.invalid
  get other hother := by
    have hne : name ≠ other := fun heq => hother (heq ▸ hname)
    have hget : (d'.utilities.add name (.ofBody body)).get other = d'.utilities.get other := by
      rw [UtilityRegistry.get_add, if_neg hne, List.append_nil]
    exact hget.trans (h.get other hother)
  functional other := by
    have hkind : (d'.utilities.add name (.ofBody body)).ofKind other .functional =
        d'.utilities.ofKind other .functional := by
      rw [UtilityRegistry.ofKind, UtilityRegistry.get_add, List.filter_append,
        UtilityRegistry.ofKind]
      by_cases heq : name = other <;> simp [heq, Utility.ofBody]
    exact hkind.trans (h.functional other)

private theorem result_defineUtility (d : DesignSystem) (name : String) (body : List Node) :
    (d.defineUtility name body).result =
      (substituteAllApply d body).result.map fun expanded =>
        d.addUtility name (.ofBody expanded) := by
  rw [defineUtility, Traced.result_bind]
  cases (substituteAllApply d body).result <;> rfl

/-- Bodies that use none of the names that are being defined are expanded as if this was done at
once. -/
theorem foldlM_defineUtility (hnames : ∀ name ∈ names, isUtilityName name = true)
    {entries : List (String × List Node)}
    (hentries : ∀ entry ∈ entries, entry.1 ∈ names ∧ ∀ name ∈ names, name ∉ appliedNames entry.2)
    (h : d.DiffersOn names d') :
    (entries.foldlM (fun (d : DesignSystem) entry => d.defineUtility entry.1 entry.2) d').result =
      (d.expandBodies entries).map d'.addBodies := by
  induction entries generalizing d' with
  | nil => rfl
  | cons entry entries ih =>
    rw [List.forall_mem_cons] at hentries
    have hbody := h.expandBody hnames hentries.1.2
    rw [List.foldlM_cons, Traced.result_bind, result_defineUtility, hbody, expandBodies_cons]
    cases (substituteAllApply d entry.2).result with
    | error e => rfl
    | ok body =>
      have hnext := ih hentries.2 (h.addBody hentries.1.1 body)
      simp only [Except.map, Except.bind, hnext]
      cases d.expandBodies entries <;> rfl

theorem ready_unused (pending : List (String × List Node)) :
    ∀ entry ∈ readyAmong pending, entry.1 ∈ pending.map Prod.fst ∧
      ∀ name ∈ pending.map Prod.fst, name ∉ appliedNames entry.2 := by
  intro entry hentry
  obtain ⟨hmem, hready⟩ := List.mem_filter.1 hentry
  refine ⟨List.mem_map_of_mem hmem, ?_⟩
  intro name hname hused
  have hnot := List.all_eq_true.1 hready name hused
  rw [List.contains_eq_mem, decide_eq_true hname] at hnot
  cases hnot

theorem result_defineUtilities_cons (d : DesignSystem) (entry : String × List Node)
    (rest : List (String × List Node)) :
    (d.defineUtilities (entry :: rest)).result =
      if readyAmong (entry :: rest) = [] then .error (.circularApply entry.1)
      else ((readyAmong (entry :: rest)).foldlM
        (fun (d : DesignSystem) entry => d.defineUtility entry.1 entry.2) d).result.bind fun d =>
          (d.defineUtilities (waitingAmong (entry :: rest))).result := by
  rw [defineUtilities]
  split
  next h =>
    rw [if_pos (show readyAmong (entry :: rest) = [] from h)]
    rfl
  next h =>
    rw [if_neg (show ¬readyAmong (entry :: rest) = [] from h), Traced.result_bind]
    rfl

theorem defineRounds_eq {n : Nat} (hlength : pending.length ≤ n)
    (hnames : ∀ entry ∈ pending, isUtilityName entry.1 = true) (d : DesignSystem) :
    defineRounds n d pending = some (d.defineUtilities pending).result := by
  induction n generalizing d pending with
  | zero =>
    rw [List.eq_nil_of_length_eq_zero (Nat.le_zero.1 hlength), defineUtilities]
    rfl
  | succ n ih =>
    cases pending with
    | nil =>
      rw [defineUtilities]
      rfl
    | cons entry rest =>
      have hwaiting : ∀ name ∈ (entry :: rest).map Prod.fst, isUtilityName name = true := by
        intro name hname
        obtain ⟨e, he, rfl⟩ := List.mem_map.1 hname
        exact hnames e he
      rw [defineRounds, result_defineUtilities_cons]
      by_cases hready : readyAmong (entry :: rest) = []
      · rw [if_pos (List.isEmpty_iff.2 hready), if_pos hready]
      have hround := foldlM_defineUtility hwaiting (ready_unused (entry :: rest))
        (DiffersOn.refl _ d)
      have hless : (waitingAmong (entry :: rest)).length < (entry :: rest).length :=
        length_filter_not_lt hready
      rw [if_neg (mt List.isEmpty_iff.1 hready), if_neg hready, hround]
      cases d.expandBodies (readyAmong (entry :: rest)) with
      | error e => rfl
      | ok bodies =>
        apply ih
        · omega
        · exact fun e he => hnames e (List.mem_filter.1 he).1

/-! ### What the rounds leave -/

def utilitiesOf (name : String) (bodies : List (String × List Node)) : List Utility :=
  bodies.filterMap fun entry => if entry.1 = name then some (.ofBody entry.2) else none

theorem utilitiesOf_cons (name : String) (entry : String × List Node)
    (bodies : List (String × List Node)) : utilitiesOf name (entry :: bodies) =
      (if entry.1 = name then [.ofBody entry.2] else []) ++ utilitiesOf name bodies := by
  by_cases h : entry.1 = name <;> simp [utilitiesOf, h]

theorem get_addBodies (d : DesignSystem) (bodies : List (String × List Node)) (name : String) :
    (d.addBodies bodies).utilities.get name = d.utilities.get name ++ utilitiesOf name bodies := by
  induction bodies generalizing d with
  | nil => simp [addBodies, utilitiesOf]
  | cons entry bodies ih =>
    have hstep : (d.addBodies (entry :: bodies)) =
        (d.addUtility entry.1 (.ofBody entry.2)).addBodies bodies := rfl
    have hget : (d.addUtility entry.1 (.ofBody entry.2)).utilities.get name = _ :=
      UtilityRegistry.get_add d.utilities entry.1 name (.ofBody entry.2)
    rw [hstep, ih, hget, List.append_assoc, utilitiesOf_cons]

theorem DiffersOn.addBodies {bodies : List (String × List Node)} (h : d.DiffersOn names d')
    (hbodies : ∀ entry ∈ bodies, entry.1 ∈ names) : d.DiffersOn names (d'.addBodies bodies) := by
  apply List.foldlRecOn (motive := d.DiffersOn names) bodies _ h
  intro d₁ h₁ entry hentry
  exact h₁.addBody (hbodies entry hentry) entry.2

theorem map_fst_of_expandBodies {entries bodies : List (String × List Node)}
    (h : d.expandBodies entries = .ok bodies) : bodies.map Prod.fst = entries.map Prod.fst := by
  have hall := Except.mapM_eq_ok_iff.1 h
  clear h
  induction hall with
  | nil => rfl
  | cons hentry _ ih =>
    obtain ⟨body, _, rfl⟩ := Except.exists_of_map hentry
    rw [List.map_cons, List.map_cons, ih]

theorem exists_body_of_expandBodies {entries bodies : List (String × List Node)}
    (h : d.expandBodies entries = .ok bodies) {entry : String × List Node}
    (hentry : entry ∈ entries) :
    ∃ body, (substituteAllApply d entry.2).result = .ok body ∧ (entry.1, body) ∈ bodies := by
  have hall := Except.mapM_eq_ok_iff.1 h
  clear h
  induction hall with
  | nil => simp at hentry
  | cons hhead _ ih =>
    rcases List.mem_cons.1 hentry with rfl | hentry
    · obtain ⟨body, hbody, rfl⟩ := Except.exists_of_map hhead
      exact ⟨body, hbody, List.mem_cons_self⟩
    · obtain ⟨body, hbody, hmem⟩ := ih hentry
      exact ⟨body, hbody, List.mem_cons_of_mem _ hmem⟩

theorem utilitiesOf_eq_nil {name : String} {bodies : List (String × List Node)}
    (h : name ∉ bodies.map Prod.fst) : utilitiesOf name bodies = [] := by
  apply List.filterMap_eq_nil_iff.2
  intro entry hentry
  rw [if_neg]
  rintro rfl
  exact h (List.mem_map_of_mem hentry)

theorem utilitiesOf_of_mem {name : String} {body : List Node} {bodies : List (String × List Node)}
    (hnodup : (bodies.map Prod.fst).Nodup) (h : (name, body) ∈ bodies) :
    utilitiesOf name bodies = [.ofBody body] := by
  induction bodies with
  | nil => simp at h
  | cons entry bodies ih =>
    rw [List.map_cons, List.nodup_cons] at hnodup
    rcases List.mem_cons.1 h with rfl | h
    · have hrest : utilitiesOf name bodies = [] := utilitiesOf_eq_nil hnodup.1
      rw [utilitiesOf_cons, hrest, if_pos rfl]
      rfl
    · have hne : entry.1 ≠ name := by
        rintro rfl
        exact hnodup.1 (List.mem_map.2 ⟨_, h, rfl⟩)
      rw [utilitiesOf_cons, ih hnodup.2 h, if_neg hne]
      rfl

theorem DiffersOn.mono {more : List String} (h : d.DiffersOn names d') (hsub : names ⊆ more) :
    d.DiffersOn more d' :=
  ⟨h.theme, h.variants, h.important, h.invalid, fun name hname => h.get name fun hmem =>
    hname (hsub hmem), h.functional⟩

theorem DiffersOn.trans {d'' : DesignSystem} (h : d.DiffersOn names d')
    (h' : d'.DiffersOn names d'') : d.DiffersOn names d'' where
  theme := h'.theme.trans h.theme
  variants := h'.variants.trans h.variants
  important := h'.important.trans h.important
  invalid := h'.invalid.trans h.invalid
  get name hname := (h'.get name hname).trans (h.get name hname)
  functional name := (h'.functional name).trans (h.functional name)

/-- The system `d'` is `d` with some utilities defined, their bodies expanded in `d'` itself. -/
structure Defines (d d' : DesignSystem) (entries : List (String × List Node)) : Prop where
  differs : d.DiffersOn (entries.map Prod.fst) d'
  defined : ∀ entry ∈ entries, ∃ body, (substituteAllApply d' entry.2).result = .ok body ∧
    d'.utilities.get entry.1 = d.utilities.get entry.1 ++ [.ofBody body]

/-- A round in front of others. What it defines is expanded alike behind the later rounds, since it
uses nothing that was waiting. -/
theorem Defines.round (hnodup : (pending.map Prod.fst).Nodup)
    (hnames : ∀ name ∈ pending.map Prod.fst, isUtilityName name = true)
    {bodies : List (String × List Node)}
    (hbodies : d.expandBodies (readyAmong pending) = .ok bodies)
    (h : (d.addBodies bodies).Defines d' (waitingAmong pending)) : d.Defines d' pending := by
  have hfst := map_fst_of_expandBodies hbodies
  have hreadySub : (readyAmong pending).map Prod.fst ⊆ pending.map Prod.fst :=
    List.map_subset _ (List.filter_sublist.subset)
  have hwaitingSub : (waitingAmong pending).map Prod.fst ⊆ pending.map Prod.fst :=
    List.map_subset _ (List.filter_sublist.subset)
  have hstep : d.DiffersOn (pending.map Prod.fst) (d.addBodies bodies) := by
    apply (DiffersOn.refl _ d).addBodies
    intro entry hentry
    exact hreadySub (hfst ▸ List.mem_map_of_mem hentry)
  have hall : d.DiffersOn (pending.map Prod.fst) d' := hstep.trans (h.differs.mono hwaitingSub)
  have hapart : ∀ a ∈ readyAmong pending, ∀ b ∈ waitingAmong pending, a.1 ≠ b.1 := by
    intro a ha b hb heq
    obtain ⟨hamem, haready⟩ := List.mem_filter.1 ha
    obtain ⟨hbmem, hbwaits⟩ := List.mem_filter.1 hb
    have hab : a = b := List.inj_on_of_nodup_map hnodup hamem hbmem heq
    rw [hab] at haready
    simp [haready] at hbwaits
  refine ⟨hall, fun entry hentry => ?_⟩
  by_cases hready : isReady (pending.map Prod.fst) entry.2 = true
  · have hmem : entry ∈ readyAmong pending := List.mem_filter.2 ⟨hentry, hready⟩
    obtain ⟨body, hbody, hbodyMem⟩ := exists_body_of_expandBodies hbodies hmem
    refine ⟨body, ?_, ?_⟩
    · rw [hall.expandBody hnames (ready_unused pending entry hmem).2, hbody]
    · rw [h.differs.get, get_addBodies, utilitiesOf_of_mem _ hbodyMem]
      · rw [hfst]
        exact hnodup.sublist (List.filter_sublist.map _)
      · intro hwaits
        obtain ⟨other, hother, heq⟩ := List.mem_map.1 hwaits
        exact hapart entry hmem other hother heq.symm
  · have hmem : entry ∈ waitingAmong pending :=
      List.mem_filter.2 ⟨hentry, by simpa using hready⟩
    obtain ⟨body, hbody, hget⟩ := h.defined entry hmem
    refine ⟨body, hbody, ?_⟩
    rw [hget, get_addBodies, utilitiesOf_eq_nil, List.append_nil]
    rw [hfst]
    intro hmemReady
    obtain ⟨other, hother, heq⟩ := List.mem_map.1 hmemReady
    exact hapart other hother entry hmem heq

theorem defines_of_defineRounds {n : Nat} (hnodup : (pending.map Prod.fst).Nodup)
    (hnames : ∀ name ∈ pending.map Prod.fst, isUtilityName name = true)
    (h : defineRounds n d pending = some (.ok d')) : d.Defines d' pending := by
  induction n generalizing d pending with
  | zero =>
    cases pending with
    | nil =>
      cases h
      exact ⟨DiffersOn.refl _ _, by simp⟩
    | cons entry rest => cases h
  | succ n ih =>
    cases pending with
    | nil =>
      cases h
      exact ⟨DiffersOn.refl _ _, by simp⟩
    | cons entry rest =>
      rw [defineRounds] at h
      split at h
      · cases h
      · split at h
        · cases h
        next bodies hbodies =>
          have hsub : ((waitingAmong (entry :: rest)).map Prod.fst).Sublist
              ((entry :: rest).map Prod.fst) := List.filter_sublist.map _
          apply Defines.round hnodup hnames hbodies
          exact ih (hnodup.sublist hsub) (fun name hname => hnames name (hsub.subset hname)) h

/-! ### Other orders -/

section Perm

variable {pending' entries entries' bodies bodies' : List (String × List Node)}

theorem isReady_perm {waiting waiting' : List String} (h : waiting.Perm waiting')
    (body : List Node) : isReady waiting body = isReady waiting' body := by
  simp only [isReady, List.contains_eq_mem, h.mem_iff]

theorem readyAmong_perm (h : pending.Perm pending') :
    (readyAmong pending).Perm (readyAmong pending') := by
  simp only [readyAmong, isReady_perm (h.map Prod.fst)]
  exact h.filter _

theorem waitingAmong_perm (h : pending.Perm pending') :
    (waitingAmong pending).Perm (waitingAmong pending') := by
  simp only [waitingAmong, isReady_perm (h.map Prod.fst)]
  exact h.filter _

theorem expandBodies_perm (h : entries.Perm entries')
    (hbodies : d.expandBodies entries = .ok bodies) :
    ∃ bodies', d.expandBodies entries' = .ok bodies' ∧ bodies.Perm bodies' := by
  obtain ⟨bodies', hall, hperm⟩ := List.perm_comp_forall₂ h.symm (Except.mapM_eq_ok_iff.1 hbodies)
  exact ⟨bodies', Except.mapM_eq_ok_iff.2 hall, hperm.symm⟩

private theorem utilitiesOf_perm (hnodup : (bodies.map Prod.fst).Nodup) (h : bodies.Perm bodies')
    (name : String) : utilitiesOf name bodies = utilitiesOf name bodies' := by
  by_cases hname : name ∈ bodies.map Prod.fst
  · obtain ⟨entry, hentry, rfl⟩ := List.mem_map.1 hname
    have hnodup' : (bodies'.map Prod.fst).Nodup := (h.map Prod.fst).nodup_iff.1 hnodup
    rw [utilitiesOf_of_mem hnodup hentry, utilitiesOf_of_mem hnodup' (h.mem_iff.1 hentry)]
  · rw [utilitiesOf_eq_nil hname, utilitiesOf_eq_nil fun hmem => hname ((h.map _).mem_iff.2 hmem)]

private theorem expandBodies_congr (h : d.DiffersOn [] d') (entries : List (String × List Node)) :
    d'.expandBodies entries = d.expandBodies entries := by
  unfold expandBodies
  congr 1
  funext entry
  rw [h.expandBody (by simp) (by simp)]

theorem DiffersOn.addBodies_perm (h : d.DiffersOn [] d') (hnodup : (bodies.map Prod.fst).Nodup)
    (hperm : bodies.Perm bodies') : (d.addBodies bodies).DiffersOn [] (d'.addBodies bodies') := by
  have hfrom : ∀ (e : DesignSystem) (bs : List (String × List Node)),
      e.DiffersOn (bs.map Prod.fst) (e.addBodies bs) :=
    fun e bs => (DiffersOn.refl _ e).addBodies fun entry hentry => List.mem_map_of_mem hentry
  have hleft := hfrom d bodies
  have hright := hfrom d' bodies'
  exact
    { theme := by rw [hleft.theme, hright.theme, h.theme]
      variants := by rw [hleft.variants, hright.variants, h.variants]
      important := by rw [hleft.important, hright.important, h.important]
      invalid := by rw [hleft.invalid, hright.invalid, h.invalid]
      get := fun name hname => by
        rw [get_addBodies, get_addBodies, h.get name hname, utilitiesOf_perm hnodup hperm]
      functional := fun name => by rw [hleft.functional, hright.functional, h.functional] }

/-- Both runs fail, or both succeed with systems that answer alike. -/
inductive SameOutcome : Except Error DesignSystem → Except Error DesignSystem → Prop
  | failure (e e' : Error) : SameOutcome (.error e) (.error e')
  | success {d d' : DesignSystem} (h : d.DiffersOn [] d') : SameOutcome (.ok d) (.ok d')

theorem defineRounds_perm {n : Nat} (h : d.DiffersOn [] d') (hperm : pending.Perm pending')
    (hnodup : (pending.map Prod.fst).Nodup) {r r' : Except Error DesignSystem}
    (hr : defineRounds n d pending = some r) (hr' : defineRounds n d' pending' = some r') :
    SameOutcome r r' := by
  induction n generalizing d d' pending pending' with
  | zero =>
    cases pending with
    | nil =>
      rw [List.nil_perm.1 hperm] at hr'
      cases hr
      cases hr'
      exact .success h
    | cons entry rest => cases hr
  | succ n ih =>
    cases pending with
    | nil =>
      rw [List.nil_perm.1 hperm] at hr'
      cases hr
      cases hr'
      exact .success h
    | cons entry rest =>
      obtain ⟨entry', rest', rfl⟩ : ∃ entry' rest', pending' = entry' :: rest' :=
        List.exists_cons_of_ne_nil fun hnil => by simp [hnil] at hperm
      have hready := readyAmong_perm hperm
      have hempty : (readyAmong (entry :: rest)).isEmpty =
          (readyAmong (entry' :: rest')).isEmpty := by
        rw [Bool.eq_iff_iff, List.isEmpty_iff_length_eq_zero, List.isEmpty_iff_length_eq_zero,
          hready.length_eq]
      rw [defineRounds] at hr hr'
      rw [expandBodies_congr h, ← hempty] at hr'
      split at hr
      next hnone =>
        rw [if_pos hnone] at hr'
        cases hr
        cases hr'
        exact .failure _ _
      next hsome =>
        rw [if_neg hsome] at hr'
        split at hr
        next e herror =>
          cases hr
          split at hr'
          · cases hr'
            exact .failure _ _
          next bodies' hbodies' =>
            obtain ⟨bodies, hbodies, -⟩ := expandBodies_perm hready.symm hbodies'
            rw [herror] at hbodies
            cases hbodies
        next bodies hbodies =>
          obtain ⟨bodies', hbodies', hpermBodies⟩ := expandBodies_perm hready hbodies
          rw [hbodies'] at hr'
          have hnodupBodies : (bodies.map Prod.fst).Nodup := by
            rw [map_fst_of_expandBodies hbodies]
            exact hnodup.sublist (List.filter_sublist.map _)
          exact ih (h.addBodies_perm hnodupBodies hpermBodies) (waitingAmong_perm hperm)
            (hnodup.sublist (List.filter_sublist.map _)) hr hr'

end Perm

/-- The order of definitions does not matter. For utilities with valid names, each defined once,
there are at most as many rounds as utilities, and in any other order of the definitions either both
runs fail, or both succeed and each name has the same utilities: those from before and one made of
its body, expanded with all other definitions in force. -/
theorem defineUtilities_order (d : DesignSystem) {pending pending' : List (String × List Node)}
    (hperm : pending.Perm pending') (hnodup : (pending.map Prod.fst).Nodup)
    (hnames : ∀ entry ∈ pending, isUtilityName entry.1 = true) :
    d.defineRounds pending.length pending = some (d.defineUtilities pending).result ∧
      ((∃ e e', (d.defineUtilities pending).result = .error e ∧
          (d.defineUtilities pending').result = .error e') ∨
        ∃ d₁ d₂, (d.defineUtilities pending).result = .ok d₁ ∧
          (d.defineUtilities pending').result = .ok d₂ ∧
          d.Defines d₁ pending ∧ d.Defines d₂ pending' ∧
          ∀ name, d₁.utilities.get name = d₂.utilities.get name) := by
  have hnames' : ∀ entry ∈ pending', isUtilityName entry.1 = true :=
    fun entry hentry => hnames entry (hperm.mem_iff.2 hentry)
  have hnodup' : (pending'.map Prod.fst).Nodup := (hperm.map Prod.fst).nodup_iff.1 hnodup
  have hrun := defineRounds_eq (Nat.le_refl pending.length) hnames d
  have hrun' := defineRounds_eq (Nat.le_of_eq hperm.length_eq.symm) hnames' d
  have hsame := defineRounds_perm (DiffersOn.refl [] d) hperm hnodup hrun hrun'
  refine ⟨hrun, ?_⟩
  generalize (d.defineUtilities pending).result = r at hrun hsame ⊢
  generalize (d.defineUtilities pending').result = r' at hrun' hsame ⊢
  cases hsame with
  | failure e e' => exact .inl ⟨e, e', rfl, rfl⟩
  | success h =>
    refine .inr ⟨_, _, rfl, rfl, ?_, ?_, ?_⟩
    · exact defines_of_defineRounds hnodup (List.forall_mem_map.2 hnames) hrun
    · exact defines_of_defineRounds hnodup' (List.forall_mem_map.2 hnames') hrun'
    · exact fun name => (h.get name List.not_mem_nil).symm

def buttonUtilities : List (String × List Node) :=
  [("btn", [.atRule "apply" "hover:pad! flex" []]), ("pad", [.atRule "apply" "p-[1px]" []])]

theorem defineUtilities_order_button : ∃ d₁ d₂,
    ((ofTheme {}).defineUtilities buttonUtilities).result = .ok d₁ ∧
      ((ofTheme {}).defineUtilities buttonUtilities.reverse).result = .ok d₂ ∧
      d₁.utilities.get "btn" = d₂.utilities.get "btn" ∧
      ∃ body, (substituteAllApply d₁ [.atRule "apply" "hover:pad! flex" []]).result = .ok body ∧
        d₁.utilities.get "btn" = [.ofBody body] := by
  have hperm : buttonUtilities.Perm buttonUtilities.reverse := (List.reverse_perm _).symm
  obtain ⟨hrounds, hfails | ⟨d₁, d₂, hd₁, hd₂, hdefines, -, hsame⟩⟩ :=
    defineUtilities_order (ofTheme {}) hperm (by decide) (by decide +kernel)
  · obtain ⟨e, e', he, -⟩ := hfails
    have hsuccess : ((ofTheme {}).defineRounds 2 buttonUtilities).any (·.isOk) = true := by
      decide +kernel
    rw [show (2 : Nat) = buttonUtilities.length from rfl, hrounds, he] at hsuccess
    cases hsuccess
  · have hnew : (ofTheme {}).utilities.get "btn" = [] := by
      rw [← List.isEmpty_iff]
      decide +kernel
    obtain ⟨body, hbody, hget⟩ := hdefines.defined _ List.mem_cons_self
    refine ⟨d₁, d₂, hd₁, hd₂, hsame "btn", body, hbody, ?_⟩
    rw [hget, hnew]
    rfl

end DesignSystem

end UtilityCss
