import UtilityCss.Proofs.StableOrder

/-!
Setting the variables of a theme, one write after the other. A name keeps the place of its first
write. It has the entry of its last explicit write, and that of its last default if no write was
explicit. So a default gives way to what is set explicitly; only a write that clears a namespace
takes both.
-/
namespace UtilityCss.Theme

/-! ### The entries of a theme -/

section Entries

variable {t t' : Theme} {flags : ThemeFlags}

theorem lookup_put (key : String) (entry : ThemeEntry) (entries : List (String × ThemeEntry))
    (name : String) :
    (put key entry entries).lookup name =
      if name = key then some entry else entries.lookup name := by
  have hcons : ∀ k (e : ThemeEntry) rest, List.lookup name ((k, e) :: rest) =
      if name = k then some e else rest.lookup name := by
    intro k e rest
    by_cases h : name = k
    · simp [h]
    · simp [List.lookup_cons, h, beq_eq_false_iff_ne.2 h]
  induction entries with
  | nil => rw [put, hcons]
  | cons first rest ih =>
    obtain ⟨k, e⟩ := first
    rw [put]
    split
    next heq =>
      rw [hcons, hcons, heq]
      split <;> rfl
    next hne =>
      rw [hcons, hcons, ih]
      by_cases h : name = k
      · simp [h, hne]
      · simp [h]

theorem keys_put (key : String) (entry : ThemeEntry) (entries : List (String × ThemeEntry)) :
    (put key entry entries).map Prod.fst =
      if key ∈ entries.map Prod.fst then entries.map Prod.fst
      else entries.map Prod.fst ++ [key] := by
  induction entries with
  | nil => simp [put]
  | cons first rest ih =>
    obtain ⟨k, e⟩ := first
    rw [put]
    split
    next heq => simp [heq]
    next hne =>
      rw [List.map_cons, List.map_cons, ih]
      by_cases hmem : key ∈ rest.map Prod.fst
      · rw [if_pos hmem, if_pos (List.mem_cons_of_mem _ hmem)]
      · have hcons : key ∉ k :: rest.map Prod.fst :=
          List.not_mem_cons_of_ne_of_not_mem (Ne.symm hne) hmem
        rw [if_neg hmem, if_neg hcons]
        rfl

theorem nodup_put {key : String} {entry : ThemeEntry} {entries : List (String × ThemeEntry)}
    (h : (entries.map Prod.fst).Nodup) : ((put key entry entries).map Prod.fst).Nodup := by
  rw [keys_put]
  split
  · exact h
  next hmem => exact h.append (List.nodup_singleton _) (List.disjoint_singleton.2 hmem)

def Turns (flags : ThemeFlags) (entries entries' : List (String × ThemeEntry)) : Prop :=
  (∃ keep, entries' = entries.filter keep) ∨ ∃ key value, entries' = put key ⟨value, flags⟩ entries

theorem Turns.refl (entries : List (String × ThemeEntry)) : Turns flags entries entries :=
  .inl ⟨fun _ => true, by simp⟩

theorem turns_add {key value : String} (h : t.add key value flags = .ok t') :
    Turns flags t.entries t'.entries := by
  rcases add_cases h with ⟨space, -, -, rfl⟩ | ⟨-, rfl | ⟨-, rfl | rfl⟩⟩
  · unfold clear
    split
    · exact .inl ⟨fun _ => false, by simp⟩
    · exact .inl ⟨_, rfl⟩
  · exact .refl _
  · exact .inl ⟨_, rfl⟩
  · exact .inr ⟨_, _, rfl⟩

theorem Turns.nodup {entries entries' : List (String × ThemeEntry)}
    (h : Turns flags entries entries')
    (hkeys : (entries.map Prod.fst).Nodup) : (entries'.map Prod.fst).Nodup := by
  rcases h with ⟨keep, rfl⟩ | ⟨key, value, rfl⟩
  · exact (List.filter_sublist.map Prod.fst).nodup hkeys
  · exact nodup_put hkeys

end Entries

/-! ### Writes -/

structure Write where
  key : String
  value : String
  flags : ThemeFlags := {}
  deriving DecidableEq, Repr

namespace Write

def name (w : Write) : String :=
  Text.unescape w.key

def entry (w : Write) : ThemeEntry :=
  ⟨w.value, w.flags⟩

def isSpace (w : Write) : Bool :=
  Text.endsWith "-*" w.name

/-- The write gives its name an entry: it neither stands for a namespace nor removes the name. -/
def Stores (w : Write) : Prop :=
  w.isSpace = false ∧ w.value ≠ "initial"

instance (w : Write) : Decidable w.Stores :=
  inferInstanceAs (Decidable (_ ∧ _))

def covers (w : Write) (name : String) : Bool :=
  (Text.stripEnd? "-*" w.name).any fun space => space == "-" || isWithin space name

/-- The write that decides on a name: the last explicit one, or the last one if all are defaults. -/
def deciding? (writes : List Write) (name : String) : Option Write :=
  let own := writes.filter fun w => w.name = name
  (own.filter fun w => !w.flags.isDefault).getLast?.or own.getLast?

theorem deciding?_concat (writes : List Write) (w : Write) (name : String) :
    deciding? (writes ++ [w]) name =
      if name = w.name ∧
          (w.flags.isDefault && (deciding? writes name).any fun d => !d.flags.isDefault) = false
        then some w else deciding? writes name := by
  by_cases hname : name = w.name
  · simp only [deciding?, List.filter_append, List.filter_singleton, hname, decide_true, true_and]
    generalize writes.filter (fun w' => w'.name = w.name) = own
    cases hlast : (own.filter fun w => !w.flags.isDefault).getLast? with
    | none =>
      have hdefault : ∀ d ∈ own, d.flags.isDefault = true := by
        simpa [List.filter_eq_nil_iff] using hlast
      have hany : own.getLast?.any (fun d => !d.flags.isDefault) = false := by
        rw [Option.any_eq_false]
        intro d hd
        simpa using hdefault d (List.mem_of_getLast? hd)
      cases hw : w.flags.isDefault <;> simp [hw, hlast, hany, List.getLast?_append]
    | some d =>
      have hexplicit : d.flags.isDefault = false := by
        simpa using (List.mem_filter.1 (List.mem_of_getLast? hlast)).2
      cases hw : w.flags.isDefault <;> simp [hw, hlast, hexplicit, List.getLast?_append]
  · simp [deciding?, List.filter_append, Ne.symm hname, hname]

end Write

variable {t : Theme} {w : Write} {writes : List Write}

def addAll (t : Theme) (writes : List Write) : Except Error Theme :=
  writes.foldlM (fun t w => t.add w.key w.value w.flags) t

/-! ### What one write stores -/

def store (t : Theme) (w : Write) : Theme :=
  if t.yields w.name w.flags then t else { t with entries := put w.name w.entry t.entries }

theorem add_eq_store (h : w.Stores) (t : Theme) :
    t.add w.key w.value w.flags = .ok (t.store w) := by
  have hspace : Text.stripEnd? "-*" (Text.unescape w.key) = none :=
    Option.isSome_eq_false_iff.1 h.1 |> Option.isNone_iff_eq_none.1
  unfold add store
  simp only [hspace, h.2, if_false]
  exact (apply_ite Except.ok _ _ _).symm

private theorem keys_store (t : Theme) (w : Write) :
    (t.store w).entries.map Prod.fst =
      if w.name ∈ t.entries.map Prod.fst then t.entries.map Prod.fst
      else t.entries.map Prod.fst ++ [w.name] := by
  unfold store
  split
  next hyields =>
    -- what a default yields to is an entry of its name
    have hmem : w.name ∈ t.entries.map Prod.fst := by
      by_contra hnone
      have hlookup : t.entries.lookup w.name = none := by
        rw [List.lookup_eq_none_iff]
        intro e he
        simpa using fun heq => hnone (List.mem_map.2 ⟨e, he, heq.symm⟩)
      simp [yields, flags?, entry?, hlookup] at hyields
    rw [if_pos hmem]
  · exact keys_put ..

private theorem entry?_store (t : Theme) (w : Write) (name : String) :
    entry? (t.store w) name =
      if name = w.name ∧ t.yields w.name w.flags = false then some w.entry else t.entry? name := by
  unfold store
  cases hyields : t.yields w.name w.flags with
  | true => simp
  | false =>
    simp only [Bool.false_eq_true, if_false, and_true]
    exact lookup_put w.name w.entry t.entries name

/-! ### What all writes store -/

theorem addAll_eq_foldl (h : ∀ w ∈ writes, w.Stores) (t : Theme) :
    t.addAll writes = .ok (writes.foldl store t) := by
  induction writes generalizing t with
  | nil => rfl
  | cons w writes ih =>
    rw [List.forall_mem_cons] at h
    rw [addAll, List.foldlM_cons, add_eq_store h.1]
    exact ih h.2 _

private theorem eraseDups_concat (names : List String) (name : String) :
    (names ++ [name]).eraseDups =
      if name ∈ names then names.eraseDups else names.eraseDups ++ [name] := by
  rw [List.eraseDups_append]
  by_cases h : name ∈ names
  · simp [List.removeAll, h]
  · simp [List.removeAll, h, List.eraseDups_cons]

theorem keys_foldl_store (ht : t.entries = []) (writes : List Write) :
    (writes.foldl store t).entries.map Prod.fst = (writes.map Write.name).eraseDups := by
  induction writes using List.reverseRecOn with
  | nil => simp [ht]
  | append_singleton writes w ih =>
    rw [List.foldl_append, List.foldl_cons, List.foldl_nil, keys_store, ih, List.map_append,
      List.map_singleton, eraseDups_concat]
    simp only [List.mem_eraseDups]

private theorem entry?_foldl_store (ht : t.entries = []) (writes : List Write) (name : String) :
    entry? (writes.foldl store t) name = (Write.deciding? writes name).map Write.entry := by
  induction writes using List.reverseRecOn with
  | nil => simp [ht, entry?, Write.deciding?]
  | append_singleton writes w ih =>
    rw [List.foldl_append, List.foldl_cons, List.foldl_nil, entry?_store, Write.deciding?_concat,
      apply_ite (Option.map Write.entry), ih]
    refine if_congr (and_congr_right fun hname => ?_) rfl rfl
    rw [yields, flags?, ← hname, ih, Option.map_map, Option.any_map]
    rfl

/-- Names stand in the order of their first writes, each once. A name has the value and flags of its
last explicit write if there is one, and of its last write otherwise. -/
theorem addAll_overrides (ht : t.isEmpty = true) (h : ∀ w ∈ writes, w.Stores) :
    ∃ t', t.addAll writes = .ok t' ∧
      t'.entries.map Prod.fst = (writes.map Write.name).eraseDups ∧
      (t'.entries.map Prod.fst).Nodup ∧
      ∀ name, entry? t' name = (Write.deciding? writes name).map Write.entry := by
  have hempty : t.entries = [] := List.isEmpty_iff.1 ht
  refine ⟨writes.foldl store t, addAll_eq_foldl h t, keys_foldl_store hempty writes, ?_,
    entry?_foldl_store hempty writes⟩
  rw [keys_foldl_store hempty]
  exact nodup_eraseDups _

theorem addAll_overrides_spacing :
    let writes : List Write :=
      [⟨"--spacing-1\\.5", "1px", { isDefault := true }⟩,
        ⟨"--radius", "2px", { isDefault := true }⟩, ⟨"--spacing-1.5", "3px", { inlined := true }⟩,
        ⟨"--radius", "4px", { isDefault := true }⟩,
        ⟨"--spacing-1.5", "5px", { isDefault := true }⟩]
    ∃ t', addAll {} writes = .ok t' ∧
      t'.entries.map Prod.fst = ["--spacing-1.5", "--radius"] ∧
      entry? t' "--spacing-1.5" = some ⟨"3px", { inlined := true }⟩ ∧
      entry? t' "--radius" = some ⟨"4px", { isDefault := true }⟩ := by
  intro writes
  have hstores : ∀ w ∈ writes, w.Stores := by decide
  obtain ⟨t', hadd, hkeys, -, hentry⟩ := addAll_overrides (t := {}) rfl hstores
  refine ⟨t', hadd, ?_, ?_, ?_⟩
  · rw [hkeys]
    decide
  · rw [hentry]
    decide
  · rw [hentry]
    decide

/-! ### What a default leaves alone -/

def explicit (t : Theme) : List (String × ThemeEntry) :=
  t.entries.filter fun e => !e.2.flags.isDefault

private theorem lookup_of_mem {entries : List (String × ThemeEntry)}
    (hkeys : (entries.map Prod.fst).Nodup)
    {e : String × ThemeEntry} (he : e ∈ entries) : entries.lookup e.1 = some e.2 := by
  obtain ⟨before, after, rfl⟩ := List.append_of_mem he
  refine List.lookup_eq_some_iff.2 ⟨before, after, rfl, fun p hp => ?_⟩
  rw [List.map_append, List.map_cons, List.nodup_append] at hkeys
  have hne := hkeys.2.2 p.1 (List.mem_map.2 ⟨p, hp, rfl⟩) e.1 List.mem_cons_self
  simpa using Ne.symm hne

private theorem ne_of_mem_explicit (hkeys : (t.entries.map Prod.fst).Nodup)
    (hw : w.flags.isDefault = true)
    (hyields : t.yields w.name w.flags = false) {e : String × ThemeEntry} (he : e ∈ t.explicit) :
    e.1 ≠ w.name := by
  obtain ⟨hmem, hexplicit⟩ := List.mem_filter.1 he
  intro heq
  have hlookup := lookup_of_mem hkeys hmem
  simp [yields, flags?, entry?, hw, ← heq, hlookup, hexplicit] at hyields

private theorem filter_put {p : String × ThemeEntry → Bool} {key : String} {entry : ThemeEntry}
    {entries : List (String × ThemeEntry)} (hentry : p (key, entry) = false)
    (hkey : ∀ e ∈ entries, e.1 = key → p e = false) :
    (put key entry entries).filter p = entries.filter p := by
  induction entries with
  | nil => simp [put, hentry]
  | cons first rest ih =>
    obtain ⟨k, e⟩ := first
    rw [List.forall_mem_cons] at hkey
    rw [put]
    split
    next heq =>
      rw [List.filter_cons_of_neg (by simp [hentry]),
        List.filter_cons_of_neg (by simp [hkey.1 heq])]
    next => rw [List.filter_cons, List.filter_cons, ih hkey.2]

private theorem explicit_clear (t : Theme) (space : String) :
    (t.clear space).explicit =
      t.explicit.filter fun e => !(space == "-" || isWithin space e.1) := by
  unfold clear
  split
  next hall => simp [explicit, hall]
  next hspace =>
    simp only [explicit, List.filter_filter]
    refine List.filter_congr fun e _ => ?_
    rw [beq_eq_false_iff_ne.2 hspace, Bool.false_or, Bool.and_comm]

private theorem explicit_erase {name : String} (h : ∀ e ∈ t.explicit, e.1 ≠ name) :
    (t.erase name).explicit = t.explicit := by
  have hswap : (t.erase name).explicit = t.explicit.filter fun e => e.1 != name := by
    simp [explicit, erase, List.filter_filter, Bool.and_comm]
  rw [hswap, List.filter_eq_self]
  simpa using h

private theorem explicit_of_add_default (hkeys : (t.entries.map Prod.fst).Nodup)
    (hw : w.flags.isDefault = true) {t' : Theme} (h : t.add w.key w.value w.flags = .ok t') :
    t'.explicit = t.explicit.filter fun e => !w.covers e.1 := by
  rcases add_cases h with ⟨space, hspace, -, rfl⟩ | ⟨hname, h⟩
  · rw [explicit_clear]
    simp [Write.covers, Write.name, hspace]
  · have hcovers : (t.explicit.filter fun e => !w.covers e.1) = t.explicit := by
      simp [Write.covers, Write.name, hname]
    rw [hcovers]
    rcases h with rfl | ⟨hyields, h⟩
    · rfl
    · have hother : ∀ e ∈ t.explicit, e.1 ≠ w.name := fun e => ne_of_mem_explicit hkeys hw hyields
      rcases h with rfl | rfl
      · exact explicit_erase hother
      · refine filter_put (by simp [hw]) fun e he heq => ?_
        by_contra hexplicit
        exact hother e (List.mem_filter.2 ⟨he, by simpa using hexplicit⟩) heq

private theorem add_eq_error (h : w.isSpace = true ∧ w.value ≠ "initial") (t : Theme) :
    t.add w.key w.value w.flags = .error (.invalidThemeValue w.name w.value) := by
  obtain ⟨space, hspace⟩ := Option.isSome_iff_exists.1 h.1
  unfold Write.name at hspace
  simp [add, hspace, h.2, Write.name]

private theorem exists_add (h : ¬(w.isSpace = true ∧ w.value ≠ "initial")) (t : Theme) :
    ∃ t', t.add w.key w.value w.flags = .ok t' := by
  unfold add
  dsimp only
  split
  next space hspace =>
    have hinitial : w.value = "initial" := by
      by_contra hvalue
      exact h ⟨by simp [Write.isSpace, Text.endsWith, Write.name, hspace], hvalue⟩
    exact ⟨_, if_pos hinitial⟩
  · split
    · exact ⟨_, rfl⟩
    · split <;> exact ⟨_, rfl⟩

/-- A default write fails if it gives a value to a namespace. Otherwise it keeps the explicit
entries as they are and in their order, except those in the namespace that it stands for, so that it
disturbs none of them exactly if none lies there. Names still have one entry each. -/
theorem add_default_explicit (hkeys : (t.entries.map Prod.fst).Nodup)
    (hw : w.flags.isDefault = true) :
    if w.isSpace = true ∧ w.value ≠ "initial" then
      t.add w.key w.value w.flags = .error (.invalidThemeValue w.name w.value)
    else
      ∃ t', t.add w.key w.value w.flags = .ok t' ∧ (t'.entries.map Prod.fst).Nodup ∧
        t'.explicit = t.explicit.filter (fun e => !w.covers e.1) ∧
        (t'.explicit = t.explicit ↔ ∀ e ∈ t.explicit, w.covers e.1 = false) := by
  split
  next hfails => exact add_eq_error hfails t
  next hfails =>
    obtain ⟨t', hadd⟩ := exists_add hfails t
    have hexplicit := explicit_of_add_default hkeys hw hadd
    refine ⟨t', hadd, (turns_add hadd).nodup hkeys, hexplicit, ?_⟩
    rw [hexplicit, List.filter_eq_self]
    simp

def palette : Theme :=
  { entries := [("--color-red", ⟨"#f00", {}⟩), ("--color-blue", ⟨"#00f", { isDefault := true }⟩),
      ("--ink", ⟨"#111", { inlined := true }⟩)] }

theorem add_default_explicit_red :
    ∃ t', palette.add "--color-red" "initial" { isDefault := true } = .ok t' ∧
      t'.explicit = [("--color-red", ⟨"#f00", {}⟩), ("--ink", ⟨"#111", { inlined := true }⟩)] := by
  have hstep := add_default_explicit (t := palette)
    (w := ⟨"--color-red", "initial", { isDefault := true }⟩) (by decide) rfl
  rw [if_neg (by decide)] at hstep
  obtain ⟨t', hadd, -, hexplicit, -⟩ := hstep
  exact ⟨t', hadd, hexplicit.trans (by decide)⟩

/-- Not every default keeps the explicit entries: clearing the namespace of a color takes it away.
-/
theorem add_default_clears :
    ¬∀ (t t' : Theme) (w : Write), (t.entries.map Prod.fst).Nodup → w.flags.isDefault = true →
      t.add w.key w.value w.flags = .ok t' → t.explicit.Sublist t'.entries := by
  intro h
  let cleared : Theme := { entries := [("--ink", ⟨"#111", { inlined := true }⟩)] }
  have hadd : palette.add "--color-*" "initial" { isDefault := true } = .ok cleared := by rfl
  have hkept :=
    h palette cleared ⟨"--color-*", "initial", { isDefault := true }⟩ (by decide) rfl hadd
  revert hkept
  decide

end UtilityCss.Theme
