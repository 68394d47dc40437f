import UtilityCss.Proofs.EscapedText
import UtilityCss.Proofs.ThemeEmission

/-!
Reading a printed theme back. Whatever was written to a theme, it holds no name that stands for a
namespace and no value that would remove a name. So its declarations, read in their order, set each
name again, and nothing they write is taken for something else.
-/
namespace UtilityCss.Theme

open Text

variable {t t' : Theme} {writes : List Write}

/-! ### What a theme can hold -/

/-- Each name stands once, none stands for a namespace, and no value would remove its name. -/
structure IsStored (entries : List (String × ThemeEntry)) : Prop where
  nodup : (entries.map Prod.fst).Nodup
  name : ∀ e ∈ entries, endsWith "-*" e.1 = false
  value : ∀ e ∈ entries, e.2.value ≠ "initial"

theorem IsStored.filter {entries : List (String × ThemeEntry)} (h : IsStored entries)
    (keep : String × ThemeEntry → Bool) : IsStored (entries.filter keep) where
  nodup := (List.filter_sublist.map Prod.fst).nodup h.nodup
  name e he := h.name e (List.mem_filter.1 he).1
  value e he := h.value e (List.mem_filter.1 he).1

theorem IsStored.put {entries : List (String × ThemeEntry)} (h : IsStored entries) {w : Write}
    (hw : w.Stores) : IsStored (put w.name w.entry entries) where
  nodup := nodup_put h.nodup
  name e he := (mem_put he).elim (h.name e) fun heq => heq ▸ hw.1
  value e he := (mem_put he).elim (h.value e) fun heq => heq ▸ hw.2

private theorem entries_add_of_not_stores {w : Write} (hw : ¬w.Stores)
    (h : t.add w.key w.value w.flags = .ok t') : ∃ keep, t'.entries = t.entries.filter keep := by
  rcases add_cases h with ⟨space, -, -, rfl⟩ | ⟨hname, h'⟩
  · unfold clear
    split
    · exact ⟨fun _ => false, by simp⟩
    · exact ⟨_, rfl⟩
  · have hspace : w.isSpace = false := by rw [Write.isSpace, endsWith, Write.name, hname]; rfl
    have hinitial : w.value = "initial" := by
      by_contra hvalue
      exact hw ⟨hspace, hvalue⟩
    simp only [add, hname, hinitial, if_true] at h
    split at h <;> cases h
    · exact ⟨fun _ => true, by simp⟩
    · exact ⟨_, rfl⟩

theorem IsStored.add {w : Write} (ht : IsStored t.entries)
    (h : t.add w.key w.value w.flags = .ok t') : IsStored t'.entries := by
  by_cases hw : w.Stores
  · rw [add_eq_store hw] at h
    cases h
    unfold store
    split
    · exact ht
    · exact ht.put hw
  · obtain ⟨keep, hkeep⟩ := entries_add_of_not_stores hw h
    exact hkeep ▸ ht.filter keep

private theorem add_keeps_rest {key value : String} {flags : ThemeFlags}
    (h : t.add key value flags = .ok t')
    (ht : t.keyframes = []) : t'.keyframes = [] ∧ t'.keyPrefix = t.keyPrefix := by
  rcases add_cases h with ⟨space, -, -, rfl⟩ | ⟨-, rfl | ⟨-, rfl | rfl⟩⟩
  · unfold clear
    split
    · exact ⟨rfl, rfl⟩
    · exact ⟨ht, rfl⟩
  all_goals exact ⟨ht, rfl⟩

theorem addAll_isStored (h : addAll {} writes = .ok t) :
    IsStored t.entries ∧ t.keyframes = [] ∧ t.keyPrefix = none := by
  refine Except.foldlM_keeps
    (P := fun t : Theme => IsStored t.entries ∧ t.keyframes = [] ∧ t.keyPrefix = none) ?_ ?_ h
  · intro t w _ t' ht hadd
    obtain ⟨hkeyframes, hunprefixed⟩ := add_keeps_rest hadd ht.2.1
    exact ⟨ht.1.add hadd, hkeyframes, hunprefixed.trans ht.2.2⟩
  · exact ⟨⟨List.nodup_nil, by simp, by simp⟩, rfl, rfl⟩

/-! ### The declarations as writes -/

def Write.ofNode? : Node → Option Write
  | .declaration property (some value) _ => some ⟨property, value, {}⟩
  | _ => none

/-- The writes that the declarations of a theme are. -/
def redeclared (t : Theme) : List Write :=
  t.declarations.filterMap Write.ofNode?

theorem redeclared_eq (t : Theme) :
    t.redeclared = t.shown.map fun e => ⟨escape (t.prefixed e.1), e.2.value, {}⟩ := by
  simp only [redeclared, declarations, List.filterMap_map]
  exact congrFun List.filterMap_eq_map _

private theorem put_of_not_mem {key : String} {entry : ThemeEntry}
    {entries : List (String × ThemeEntry)}
    (h : key ∉ entries.map Prod.fst) : put key entry entries = entries ++ [(key, entry)] := by
  induction entries with
  | nil => rfl
  | cons first rest ih =>
    obtain ⟨k, e⟩ := first
    rw [List.map_cons, List.mem_cons, not_or] at h
    rw [put, if_neg (Ne.symm h.1), ih h.2]
    rfl

theorem foldl_store_new (hflags : ∀ w ∈ writes, w.flags.isDefault = false)
    (hnames : (t.entries.map Prod.fst ++ writes.map Write.name).Nodup) :
    writes.foldl store t =
      { t with entries := t.entries ++ writes.map fun w => (w.name, w.entry) } := by
  induction writes generalizing t with
  | nil => simp
  | cons w writes ih =>
    rw [List.forall_mem_cons] at hflags
    have hnew : w.name ∉ t.entries.map Prod.fst := by
      intro hmem
      exact (List.nodup_append.1 hnames).2.2 _ hmem _ List.mem_cons_self rfl
    have hstore : t.store w = { t with entries := t.entries ++ [(w.name, w.entry)] } := by
      simp [store, yields, hflags.1, put_of_not_mem hnew]
    rw [List.foldl_cons, hstore, ih hflags.2 (by simpa using hnames)]
    simp

/-! ### The names of the declarations -/

theorem prefixed_cases (t : Theme) (key : String) :
    (t.prefixed key = key ∧ ∀ p, t.keyPrefix = some p → strip? "--" key = none) ∨
      ∃ p rest, t.keyPrefix = some p ∧ key = "--" ++ rest ∧
        t.prefixed key = "--" ++ p ++ "-" ++ rest := by
  unfold prefixed
  split
  next p rest hp hrest => exact .inr ⟨p, rest, hp, strip?_eq_some_iff.1 hrest, rfl⟩
  next hnot =>
    refine .inl ⟨rfl, fun p hp => ?_⟩
    cases hstrip : strip? "--" key with
    | none => rfl
    | some rest => exact absurd hstrip (hnot p rest hp)

private theorem escape_prefixed_inj {a b : String} (ha : '\x00' ∉ a.toList) (hb : '\x00' ∉ b.toList)
    (h : escape (t.prefixed a) = escape (t.prefixed b)) : a = b := by
  have hread := congrArg (fun s => (unescape s).toList) h
  simp only [toList_unescape_escape] at hread
  have hdash : identChar '-' = '-' := by decide
  -- a name without the prefix does not begin with the two hyphens that the other one does
  have hapart : ∀ {a rest p : String}, '\x00' ∉ a.toList → strip? "--" a = none →
      a.toList.map identChar ≠ ("--" ++ p ++ "-" ++ rest).toList.map identChar := by
    intro a rest p ha hstrip heq
    rw [map_identChar ha] at heq
    have hstart : a = "--" ++ String.ofList ((p ++ "-" ++ rest).toList.map identChar) := by
      apply String.toList_injective
      simpa [hdash] using heq
    rw [strip?_eq_some_iff.2 hstart] at hstrip
    cases hstrip
  rcases t.prefixed_cases a with ⟨haq, hap⟩ | ⟨p, ra, hp, rfl, haq⟩ <;>
    rcases t.prefixed_cases b with ⟨hbq, hbp⟩ | ⟨q, rb, hq, rfl, hbq⟩ <;> rw [haq, hbq] at hread
  · rw [map_identChar ha, map_identChar hb] at hread
    exact String.toList_injective hread
  · exact absurd hread (hapart ha (hap q hq))
  · exact absurd hread.symm (hapart hb (hbp p hp))
  · obtain rfl : p = q := Option.some.inj (hp.symm.trans hq)
    have hra : '\x00' ∉ ra.toList := fun hmem => ha (by simp [hmem])
    have hrb : '\x00' ∉ rb.toList := fun hmem => hb (by simp [hmem])
    simp only [String.toList_append, List.map_append, List.append_cancel_left_eq, map_identChar hra,
      map_identChar hrb] at hread
    rw [String.toList_injective hread]

private theorem nodup_redeclared (hkeys : (t.entries.map Prod.fst).Nodup)
    (hzero : ∀ e ∈ t.entries, '\x00' ∉ e.1.toList) : (t.redeclared.map Write.key).Nodup := by
  have hshown : (t.shown.map Prod.fst).Nodup := (List.filter_sublist.map Prod.fst).nodup hkeys
  rw [redeclared_eq, List.map_map]
  refine (List.pairwise_map.1 hshown).imp_of_mem ?_ |> List.pairwise_map.2
  intro e e' he he' hne heq
  have hmem : ∀ e ∈ t.shown, e ∈ t.entries := fun e he => (List.mem_filter.1 he).1
  exact hne (escape_prefixed_inj (hzero e (hmem e he)) (hzero e' (hmem e' he')) heq)

/-! ### Reading the declarations -/

theorem unescape_declared (hunprefixed : t.keyPrefix = none) {key : String}
    (hzero : '\x00' ∉ key.toList) : unescape (escape (t.prefixed key)) = key := by
  rw [prefixed, hunprefixed]
  exact unescape_escape_of_nonzero hzero

private theorem stores_redeclared (ht : IsStored t.entries) (hunprefixed : t.keyPrefix = none)
    (hzero : ∀ e ∈ t.entries, '\x00' ∉ e.1.toList) {w : Write} (hw : w ∈ t.redeclared) :
    w.Stores ∧ w.flags.isDefault = false := by
  rw [redeclared_eq] at hw
  obtain ⟨e, he, rfl⟩ := List.mem_map.1 hw
  have hmem : e ∈ t.entries := (List.mem_filter.1 he).1
  refine ⟨⟨?_, ht.value e hmem⟩, rfl⟩
  rw [Write.isSpace, Write.name, unescape_declared hunprefixed (hzero e hmem)]
  exact ht.name e hmem

private theorem map_redeclared (hunprefixed : t.keyPrefix = none)
    (hzero : ∀ e ∈ t.entries, '\x00' ∉ e.1.toList)
    (hshown : ∀ e ∈ t.entries, e.2.flags.reference = false) :
    (t.redeclared.map fun w => (w.name, w.entry)) =
      t.entries.map fun e => (e.1, { value := e.2.value }) := by
  have hall : t.shown = t.entries := by
    rw [shown, List.filter_eq_self]
    simpa using hshown
  rw [redeclared_eq, hall, List.map_map]
  refine List.map_congr_left fun e he => ?_
  exact Prod.ext (unescape_declared hunprefixed (hzero e he)) rfl

/-- Whatever is written to the empty theme: where no name has the character zero and no variable is
a mere reference, reading the declarations gives all names and values again, in the same places.
With any prefix no two declarations have one name. -/
theorem addAll_redeclared (h : addAll {} writes = .ok t)
    (hzero : ∀ e ∈ t.entries, '\x00' ∉ e.1.toList) :
    ((∀ e ∈ t.entries, e.2.flags.reference = false) →
      addAll {} t.redeclared =
        .ok { t with entries := t.entries.map fun e => (e.1, { value := e.2.value }) }) ∧
    ∀ p, ((redeclared { t with keyPrefix := p }).map Write.key).Nodup := by
  obtain ⟨hstored, hkeyframes, hunprefixed⟩ := addAll_isStored h
  refine ⟨fun hshown => ?_, fun p => nodup_redeclared hstored.nodup hzero⟩
  have hread := map_redeclared hunprefixed hzero hshown
  have hnames : t.redeclared.map Write.name = t.entries.map Prod.fst := by
    have hfst := congrArg (List.map Prod.fst) hread
    rwa [List.map_map, List.map_map] at hfst
  have hwrites := fun w hw => stores_redeclared hstored hunprefixed hzero (w := w) hw
  have hfold : t.redeclared.foldl store {} =
      { entries := t.entries.map fun e => (e.1, { value := e.2.value }) } := by
    rw [foldl_store_new (fun w hw => (hwrites w hw).2) (by simpa [hnames] using hstored.nodup),
      hread]
    rfl
  rw [addAll_eq_foldl fun w hw => (hwrites w hw).1, hfold, hkeyframes, hunprefixed]

theorem addAll_redeclared_escaped :
    let writes : List Write :=
      [⟨"--spacing-1\\.5", "1px", { isDefault := true }⟩, ⟨"--color-red", "#f00", {}⟩,
        ⟨"2*\t", "3px", { inlined := true }⟩, ⟨"--color-*", "initial", {}⟩, ⟨"--old", "4px", {}⟩,
        ⟨"--tw-x", "", {}⟩, ⟨"--old", "initial", {}⟩, ⟨"--spacing-1.5", "5px", {}⟩]
    let read : Theme :=
      { entries := [("--spacing-1.5", ⟨"5px", {}⟩), ("2*\t", ⟨"3px", {}⟩), ("--tw-x", ⟨"", {}⟩)] }
    ∃ t, addAll {} writes = .ok t ∧
      t.redeclared.map Write.key = ["--spacing-1\\.5", "\\32 \\*\\9 ", "--tw-x"] ∧
      addAll {} t.redeclared = .ok read ∧
      ((redeclared { t with keyPrefix := some "tw" }).map Write.key).Nodup := by
  intro writes read
  let t : Theme :=
    { entries := [("--spacing-1.5", ⟨"5px", {}⟩), ("2*\t", ⟨"3px", { inlined := true }⟩),
        ("--tw-x", ⟨"", {}⟩)] }
  have hadd : addAll {} writes = .ok t := by rfl
  have hzero : ∀ e ∈ t.entries, '\x00' ∉ e.1.toList := by decide
  obtain ⟨hread, hnodup⟩ := addAll_redeclared hadd hzero
  exact ⟨t, hadd, by decide, hread (by decide), hnodup _⟩

end UtilityCss.Theme
