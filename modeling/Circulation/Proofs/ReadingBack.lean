import Circulation.Json.Reader
import Circulation.Json.Writer
import Circulation.Proofs.Digits

/-!
The text form of data, written and read back. A value reads back if a reader with enough levels
takes its text for the value, at any level of indentation and before anything that ends a number.
Main results: short integers and truth values read back, and so do lists of values that do and
records of such values under plain, different names.
-/

namespace Circulation.Json

/-- What follows a number does not belong to it. -/
def EndsNumber (rest : List Char) : Prop :=
  ∀ c ∈ rest.head?, c.isDigit = false ∧ c ≠ '.' ∧ c ≠ 'e' ∧ c ≠ 'E'

theorem wholeDigits_digitChars (n : Nat) {rest : List Char} (hrest : EndsNumber rest) :
    wholeDigits (Decimal.digitChars n ++ rest) = (Decimal.digitChars n, rest) := by
  have hspan := Decimal.spanDigits_append
    (fun c hc => Decimal.isDigit_of_mem_digitChars (n := n) hc) fun c hc => (hrest c hc).1
  cases hdigits : Decimal.digitChars n with
  | nil => exact absurd hdigits (Decimal.digitChars_ne_nil n)
  | cons c cs =>
    rw [hdigits] at hspan
    by_cases hc : c = '0'
    · subst hc
      have hzero := Decimal.head_digitChars hdigits
      subst hzero
      cases hdigits
      rfl
    · simp only [wholeDigits, List.cons_append]
      split
      · next h => exact absurd (List.cons.inj h).1 hc
      · exact hspan

theorem fractionDigits_of_ends {rest : List Char} (hrest : EndsNumber rest) :
    fractionDigits rest = ([], rest) := by
  unfold fractionDigits
  split
  · exact absurd rfl (hrest '.' rfl).2.1
  · rfl

theorem exponentPart_of_ends {rest : List Char} (hrest : EndsNumber rest) :
    exponentPart rest = (none, rest) := by
  unfold exponentPart
  split
  · next c rest =>
    have hc := (hrest c rfl).2.2
    simp [hc.1, hc.2]
  · rfl

theorem unsignedNumber_digitChars {n : Nat} (hshort : Decimal.IsShort n) (negative : Bool)
    {rest : List Char} (hrest : EndsNumber rest) :
    unsignedNumber negative (Decimal.digitChars n ++ rest) =
      .ok (.int (if negative then -(n : Int) else n), rest) := by
  rw [Decimal.IsShort, Int.natAbs_natCast] at hshort
  have hread : Decimal.ofDigits (Decimal.digitChars n) = n := Decimal.ofDigits_digitChars n
  simp only [unsignedNumber, wholeDigits_digitChars n hrest]
  split
  · next h => exact absurd (Prod.mk.inj h).1 (Decimal.digitChars_ne_nil n)
  · next whole rest' _ h =>
    obtain ⟨rfl, rfl⟩ := Prod.mk.inj h
    simp only [fractionDigits_of_ends hrest, exponentPart_of_ends hrest, hread]
    rw [if_pos (by rfl), if_neg (by omega)]

theorem ne_of_isDigit {c d : Char} (hc : c.isDigit = true) (hd : d.isDigit = false) : c ≠ d := by
  rintro rfl
  exact absurd hc (by simp [hd])

theorem scalar_of_isDigit {c : Char} (cs : List Char) (hc : c.isDigit = true) :
    scalar (c :: cs) = unsignedNumber false (c :: cs) := by
  have hword : word? (c :: cs) = none := by
    unfold word?
    split
    -- A word starts with a letter or a sign.
    all_goals first
      | rfl
      | next h => cases h; exact absurd hc (by decide)
  simp only [scalar, hword]
  split
  · next h => exact absurd (List.cons.inj h).1 (ne_of_isDigit hc rfl)
  · rfl

theorem scalar_of_minus {c : Char} (cs : List Char) (hc : c.isDigit = true) :
    scalar ('-' :: c :: cs) = unsignedNumber true (c :: cs) := by
  have hword : word? ('-' :: c :: cs) = none := by
    have hinfinity : c ≠ 'I' := ne_of_isDigit hc rfl
    simp [word?, hinfinity]
  simp only [scalar, hword]

theorem scalar_intChars {n : Int} (hshort : Decimal.IsShort n) {rest : List Char}
    (hrest : EndsNumber rest) : scalar (intChars n ++ rest) = .ok (.int n, rest) := by
  have hsize : Decimal.IsShort n.natAbs := by
    rwa [Decimal.IsShort, Int.natAbs_natCast]
  have hread := fun negative => unsignedNumber_digitChars hsize negative hrest
  cases hdigits : Decimal.digitChars n.natAbs with
  | nil => exact absurd hdigits (Decimal.digitChars_ne_nil _)
  | cons d ds =>
    have hd : d.isDigit = true :=
      Decimal.isDigit_of_mem_digitChars (hdigits ▸ List.mem_cons_self)
    rw [hdigits] at hread
    unfold intChars
    rw [hdigits]
    split
    · next hneg =>
      rw [List.cons_append, List.cons_append, scalar_of_minus _ hd]
      rw [← List.cons_append, hread true, if_pos rfl]
      congr 3
      omega
    · next hneg =>
      rw [List.cons_append, scalar_of_isDigit _ hd, ← List.cons_append, hread false]
      rw [if_neg (by decide)]
      congr 3
      omega

theorem skipSpace_newline (level : Nat) (cs : List Char) :
    skipSpace (newline level ++ cs) = skipSpace cs := by
  refine List.dropWhile_append_of_pos fun c hc => ?_
  simp only [newline, List.mem_cons, List.mem_replicate] at hc
  rcases hc with rfl | ⟨-, rfl⟩
  · rfl
  · rfl

theorem skipSpace_of_head {c : Char} (cs : List Char) (hc : isSpace c = false) :
    skipSpace (c :: cs) = c :: cs :=
  List.dropWhile_cons_of_neg (by simp [hc])

theorem skipSpace_stringChars (t : Text) (rest : List Char) :
    skipSpace (stringChars t ++ rest) = stringChars t ++ rest :=
  rfl

theorem endsNumber_nil : EndsNumber [] := by
  intro c hc
  cases hc

theorem endsNumber_newline (level : Nat) (cs : List Char) : EndsNumber (newline level ++ cs) := by
  rintro c ⟨⟩
  decide

theorem endsNumber_comma (cs : List Char) : EndsNumber (',' :: cs) := by
  rintro c ⟨⟩
  decide

theorem scalar_eq_error {c : Char} (cs : List Char) (hc : c = '"' ∨ c = '[' ∨ c = '\x7b') :
    scalar (c :: cs) = .error .notJson := by
  rcases hc with rfl | rfl | rfl
  all_goals rfl

theorem value_of_scalar {cs : List Char} {r : Value × List Char} (h : scalar cs = .ok r)
    (fuel levels : Nat) : value (fuel + 1) levels cs = .ok r := by
  unfold value
  split
  · rw [scalar_eq_error _ (by decide)] at h
    cases h
  · rw [scalar_eq_error _ (by decide)] at h
    cases h
  · rw [scalar_eq_error _ (by decide)] at h
    cases h
  · exact h

theorem value_eq_error {c : Char} (cs : List Char) (hc : isSpace c = true ∨ c = ']')
    (fuel levels : Nat) : value fuel levels (c :: cs) = .error .notJson := by
  cases fuel with
  | zero => rfl
  | succ fuel =>
    simp only [isSpace, Bool.or_eq_true, beq_iff_eq] at hc
    rcases hc with (((rfl | rfl) | rfl) | rfl) | rfl
    all_goals rfl

theorem head_of_value {fuel levels : Nat} {cs : List Char} {r : Value × List Char}
    (h : value fuel levels cs = .ok r) :
    ∃ c rest, cs = c :: rest ∧ isSpace c = false ∧ c ≠ ']' := by
  cases cs with
  | nil =>
    cases fuel with
    | zero => cases h
    | succ fuel => cases h
  | cons c rest =>
    refine ⟨c, rest, rfl, ?_, fun hc => ?_⟩
    · by_contra hspace
      rw [value_eq_error rest (Or.inl (by simpa using hspace))] at h
      cases h
    · rw [value_eq_error rest (Or.inr hc)] at h
      cases h

def IsPlainChar (c : Char) : Prop :=
  0x20 ≤ c.toNat ∧ c.toNat < 0x7f ∧ c ≠ '"' ∧ c ≠ '\\'

instance : DecidablePred IsPlainChar :=
  fun c => inferInstanceAs (Decidable (0x20 ≤ c.toNat ∧ c.toNat < 0x7f ∧ c ≠ '"' ∧ c ≠ '\\'))

/-- The text is written without escapes. -/
def IsPlain (t : Text) : Prop :=
  ∃ cs : List Char, t.points = cs.map .char ∧ cs.all (IsPlainChar ·) = true

namespace IsPlainChar

variable {c : Char}

theorem escapedChar_eq (h : IsPlainChar c) : escapedChar c = [c] := by
  obtain ⟨hlow, hhigh, hquote, hslash⟩ := h
  have hne : ∀ d : Char, d.toNat < 0x20 → c ≠ d := by
    rintro d hd rfl
    omega
  simp only [escapedChar, beq_iff_eq, hquote, hslash, hne '\n' (by decide), hne '\r' (by decide),
    hne '\t' (by decide), hne '\x08' (by decide), hne '\x0c' (by decide), Bool.and_eq_true,
    Bool.or_eq_true, decide_eq_true_eq, hlow, hhigh, or_self, and_self, if_true, if_false]

theorem pointOfUnit_eq (h : IsPlainChar c) : pointOfUnit c.toNat = .char c := by
  have hhigh := h.2.1
  have hhalf : ¬ (isHighHalf c.toNat || isLowHalf c.toNat) = true := by
    simp only [isHighHalf, isLowHalf, Bool.or_eq_true, Bool.and_eq_true, decide_eq_true_eq]
    omega
  rw [pointOfUnit, if_neg hhalf, Char.ofNat_toNat]

theorem stringRest_eq (h : IsPlainChar c) (rest : List Char) :
    stringRest (c :: rest) = (stringRest rest).map fun r => (c.toNat :: r.1, r.2) := by
  obtain ⟨hlow, hhigh, hquote, hslash⟩ := h
  rw [stringRest.eq_def]
  split
  · next hnil => cases hnil
  · next hcons => exact absurd (List.cons.inj hcons).1 hquote
  · next hcons => exact absurd (List.cons.inj hcons).1 hslash
  · next hcons => exact absurd (List.cons.inj hcons).1 hslash
  · next hcons =>
    obtain ⟨rfl, rfl⟩ := List.cons.inj hcons
    have hplain : ¬ (c.toNat < 0x20 || c == '\\') = true := by
      simp only [Bool.or_eq_true, decide_eq_true_eq, beq_iff_eq, hslash, or_false]
      omega
    rw [if_neg hplain]
    cases stringRest rest with
    | none => rfl
    | some r => rfl

end IsPlainChar

theorem flatMap_escapedChar {cs : List Char} (hcs : ∀ c ∈ cs, IsPlainChar c) :
    cs.flatMap escapedChar = cs := by
  induction cs with
  | nil => rfl
  | cons c cs ih =>
    rw [List.flatMap_cons, (hcs c List.mem_cons_self).escapedChar_eq,
      ih fun d hd => hcs d (List.mem_cons_of_mem c hd)]
    rfl

theorem stringRest_plain {cs : List Char} (hcs : ∀ c ∈ cs, IsPlainChar c) (rest : List Char) :
    stringRest (cs ++ '"' :: rest) = some (cs.map Char.toNat, rest) := by
  induction cs with
  | nil => rfl
  | cons c cs ih =>
    rw [List.cons_append, (hcs c List.mem_cons_self).stringRest_eq,
      ih fun d hd => hcs d (List.mem_cons_of_mem c hd)]
    rfl

theorem joinHalves_plain {cs : List Char} (hcs : ∀ c ∈ cs, IsPlainChar c) :
    joinHalves (cs.map Char.toNat) = cs.map .char := by
  induction cs with
  | nil => rfl
  | cons c cs ih =>
    have hc := hcs c List.mem_cons_self
    have htail := ih fun d hd => hcs d (List.mem_cons_of_mem c hd)
    cases cs with
    | nil => exact congrArg (· :: []) hc.pointOfUnit_eq
    | cons d ds =>
      have hhigh : ¬ (isHighHalf c.toNat && isLowHalf d.toNat) = true := by
        have := hc.2.1
        simp only [isHighHalf, Bool.and_eq_true, decide_eq_true_eq]
        omega
      rw [List.map_cons, List.map_cons, joinHalves, if_neg hhigh, hc.pointOfUnit_eq]
      exact congrArg _ htail

theorem string_stringChars {t : Text} (h : IsPlain t) (rest : List Char) :
    ∃ cs, stringChars t ++ rest = '"' :: cs ∧ string cs = .ok (t, rest) := by
  obtain ⟨cs, ht, hall⟩ := h
  have hcs : ∀ c ∈ cs, IsPlainChar c := by simpa using hall
  have hchars : t.points.flatMap escapedPoint = cs := by
    rw [ht, List.flatMap_map]
    exact flatMap_escapedChar hcs
  refine ⟨cs ++ '"' :: rest, ?_, ?_⟩
  · simp only [stringChars, hchars, List.cons_append, List.append_assoc, List.nil_append]
  · rw [string, stringRest_plain hcs]
    simp only [joinHalves_plain hcs, ← ht]

theorem setMember_of_notMem {before : List (Text × Value)} {name : Text} (v : Value)
    (h : name ∉ before.map Prod.fst) : setMember before name v = before ++ [(name, v)] := by
  refine if_neg fun hany => h ?_
  obtain ⟨m, hm, hname⟩ := List.any_eq_true.mp hany
  exact List.mem_map.mpr ⟨m, hm, beq_iff_eq.mp hname⟩

theorem notMem_of_nodup {before ms : List (Text × Value)} {name : Text} {v : Value}
    (h : ((before ++ (name, v) :: ms).map Prod.fst).Nodup) : name ∉ before.map Prod.fst := by
  rw [List.map_append, List.nodup_append] at h
  exact fun hmem => h.2.2 name hmem name List.mem_cons_self rfl

/-- The value is read back from its text, wherever it stands, by a reader with enough levels. -/
def ReadsBack (depth : Nat) (v : Value) : Prop :=
  ∀ level levels fuel rest, depth ≤ levels → (chars level v).length < fuel → EndsNumber rest →
    value fuel levels (chars level v ++ rest) = .ok (v, rest)

theorem ReadsBack.mono {depth depth' : Nat} {v : Value} (h : ReadsBack depth v)
    (hle : depth ≤ depth') : ReadsBack depth' v :=
  fun level levels fuel rest hlevels => h level levels fuel rest (hle.trans hlevels)

theorem readsBack_of_scalar {v : Value}
    (h : ∀ level rest, EndsNumber rest → scalar (chars level v ++ rest) = .ok (v, rest)) :
    ReadsBack 0 v := by
  intro level levels fuel rest _ hfuel hrest
  cases fuel with
  | zero => omega
  | succ fuel => exact value_of_scalar (h level rest hrest) fuel levels

theorem readsBack_int {n : Int} (hshort : Decimal.IsShort n) : ReadsBack 0 (.int n) :=
  readsBack_of_scalar fun _ _ hrest => scalar_intChars hshort hrest

theorem readsBack_bool (b : Bool) : ReadsBack 0 (.bool b) := by
  refine readsBack_of_scalar fun level rest _ => ?_
  cases b with
  | true => rfl
  | false => rfl

namespace ReadsBack

variable {depth : Nat} {v : Value}

theorem head_chars (h : ReadsBack depth v) (level : Nat) :
    ∃ c cs, chars level v = c :: cs ∧ isSpace c = false ∧ c ≠ ']' := by
  have hread := h level depth ((chars level v).length + 1) [] le_rfl (Nat.lt_succ_self _)
    endsNumber_nil
  rw [List.append_nil] at hread
  exact head_of_value hread

theorem skipSpace_chars (h : ReadsBack depth v) (level : Nat) (rest : List Char) :
    skipSpace (chars level v ++ rest) = chars level v ++ rest := by
  obtain ⟨c, cs, hchars, hspace, -⟩ := h.head_chars level
  rw [hchars]
  exact skipSpace_of_head _ hspace

/-- The items of a list up to its end. The induction is on the items that follow the first. -/
theorem items_chars {vs : List Value} (level outer : Nat) (hv : ReadsBack depth v)
    (hvs : ∀ w ∈ vs, ReadsBack depth w) (levels fuel : Nat) (rest : List Char)
    (hlevels : depth ≤ levels)
    (hfuel : (chars level v).length + (itemChars level vs).length + 1 < fuel) :
    items fuel levels (chars level v ++ (itemChars level vs ++ (newline outer ++ ']' :: rest))) =
      .ok (v :: vs, rest) := by
  induction vs generalizing v fuel with
  | nil =>
    cases fuel with
    | zero => omega
    | succ fuel =>
      simp only [itemChars, List.nil_append, List.length_nil] at hfuel ⊢
      rw [items, hv level levels fuel _ hlevels (by omega) (endsNumber_newline _ _)]
      simp only [bind, Except.bind, skipSpace_newline]
      rfl
  | cons w vs ih =>
    cases fuel with
    | zero => omega
    | succ fuel =>
      have hw : ReadsBack depth w := hvs w List.mem_cons_self
      simp only [itemChars, List.length_cons, List.length_append] at hfuel
      have hpos : 0 < (newline level).length := Nat.succ_pos _
      have htail := ih hw (fun x hx => hvs x (List.mem_cons_of_mem w hx)) fuel (by omega)
      simp only [itemChars, List.cons_append, List.append_assoc]
      rw [items, hv level levels fuel _ hlevels (by omega) (endsNumber_comma _)]
      simp only [bind, Except.bind, skipSpace_of_head _ (show isSpace ',' = false from rfl)]
      rw [skipSpace_newline, hw.skipSpace_chars, htail]
      rfl

theorem list {vs : List Value} (hvs : ∀ w ∈ vs, ReadsBack depth w) :
    ReadsBack (depth + 1) (.list vs) := by
  intro level levels fuel rest hlevels hfuel _
  obtain ⟨levels, rfl⟩ : ∃ n, levels = n + 1 := ⟨levels - 1, by omega⟩
  obtain ⟨fuel, rfl⟩ : ∃ n, fuel = n + 1 := ⟨fuel - 1, by omega⟩
  cases vs with
  | nil => rfl
  | cons v vs =>
    have hv : ReadsBack depth v := hvs v List.mem_cons_self
    obtain ⟨c, cs, hhead, -, hend⟩ := hv.head_chars (level + 1)
    simp only [chars, List.length_cons, List.length_append, List.length_nil] at hfuel
    have hitems := items_chars (level + 1) level hv
      (fun w hw => hvs w (List.mem_cons_of_mem v hw)) levels fuel rest
      (Nat.le_of_succ_le_succ hlevels) (by omega)
    simp only [chars, List.cons_append, List.append_assoc, List.nil_append]
    rw [value]
    simp only [skipSpace_newline, hv.skipSpace_chars]
    split
    · next rest' h =>
      rw [hhead] at h
      exact absurd (List.cons.inj h).1 hend
    · rw [hitems]
      rfl

/-- One member of a new name, before the end of the record or another member. -/
theorem members_step (h : ReadsBack depth v) {name : Text} (hname : IsPlain name)
    {before : List (Text × Value)} (hnew : name ∉ before.map Prod.fst) (level levels fuel : Nat)
    (hlevels : depth ≤ levels) (hfuel : (chars level v).length < fuel) {cs : List Char}
    (hcs : EndsNumber cs) :
    (∀ rest, skipSpace cs = '\x7d' :: rest →
      members (fuel + 1) levels before
        (stringChars name ++ (':' :: ' ' :: (chars level v ++ cs))) =
          .ok (before ++ [(name, v)], rest)) ∧
    ∀ rest, skipSpace cs = ',' :: rest →
      members (fuel + 1) levels before
        (stringChars name ++ (':' :: ' ' :: (chars level v ++ cs))) =
          members fuel levels (before ++ [(name, v)]) (skipSpace rest) := by
  obtain ⟨text, htext, hstring⟩ :=
    string_stringChars hname (':' :: ' ' :: (chars level v ++ cs))
  have hblank : skipSpace (' ' :: (chars level v ++ cs)) = chars level v ++ cs :=
    h.skipSpace_chars level cs
  rw [htext, members]
  simp only [hstring, bind, Except.bind, skipSpace_of_head _ (show isSpace ':' = false from rfl),
    hblank, h level levels fuel cs hlevels hfuel hcs, setMember_of_notMem v hnew]
  constructor
  · intro rest hrest
    rw [hrest]
    rfl
  · intro rest hrest
    rw [hrest]
    rfl

theorem members_chars {ms : List (Text × Value)} (level outer : Nat) {name : Text}
    (hname : IsPlain name) (hv : ReadsBack depth v)
    (hms : ∀ m ∈ ms, IsPlain m.1 ∧ ReadsBack depth m.2) (before : List (Text × Value))
    (hdistinct : ((before ++ (name, v) :: ms).map Prod.fst).Nodup) (levels fuel : Nat)
    (rest : List Char) (hlevels : depth ≤ levels)
    (hfuel : (chars level v).length + (memberChars level ms).length + 1 < fuel) :
    members fuel levels before (stringChars name ++ (':' :: ' ' :: (chars level v ++
      (memberChars level ms ++ (newline outer ++ '\x7d' :: rest))))) =
        .ok (before ++ (name, v) :: ms, rest) := by
  induction ms generalizing v name before fuel with
  | nil =>
    cases fuel with
    | zero => omega
    | succ fuel =>
      have hnew := notMem_of_nodup hdistinct
      have hstep := members_step hv hname hnew level levels fuel hlevels (by omega)
        (endsNumber_newline outer ('\x7d' :: rest))
      exact hstep.1 rest (skipSpace_newline outer _)
  | cons m ms ih =>
    cases fuel with
    | zero => omega
    | succ fuel =>
      obtain ⟨hplain, hm⟩ := hms m List.mem_cons_self
      have hpos : 0 < (newline level).length := Nat.succ_pos _
      simp only [memberChars, List.length_cons, List.length_append] at hfuel
      have htail := ih hplain hm (fun x hx => hms x (List.mem_cons_of_mem m hx))
        (before ++ [(name, v)]) (by simpa using hdistinct) fuel (by omega)
      have hnew := notMem_of_nodup hdistinct
      have hstep := members_step hv hname hnew level levels fuel hlevels (by omega)
        (endsNumber_comma (newline level ++ (stringChars m.1 ++ (':' :: ' ' ::
          (chars level m.2 ++ (memberChars level ms ++ (newline outer ++ '\x7d' :: rest)))))))
      simp only [memberChars, List.cons_append, List.append_assoc, List.nil_append]
      rw [hstep.2 _ (skipSpace_of_head _ rfl), skipSpace_newline, skipSpace_stringChars, htail,
        List.append_assoc]
      rfl

theorem record {ms : List (Text × Value)} (hms : ∀ m ∈ ms, IsPlain m.1 ∧ ReadsBack depth m.2)
    (hdistinct : (ms.map Prod.fst).Nodup) : ReadsBack (depth + 1) (.record ms) := by
  intro level levels fuel rest hlevels hfuel _
  obtain ⟨levels, rfl⟩ : ∃ n, levels = n + 1 := ⟨levels - 1, by omega⟩
  obtain ⟨fuel, rfl⟩ : ∃ n, fuel = n + 1 := ⟨fuel - 1, by omega⟩
  cases ms with
  | nil => rfl
  | cons m ms =>
    obtain ⟨hplain, hm⟩ := hms m List.mem_cons_self
    simp only [chars, List.length_cons, List.length_append, List.length_nil] at hfuel
    have hmembers := members_chars (level + 1) level hplain hm
      (fun x hx => hms x (List.mem_cons_of_mem m hx)) [] hdistinct levels fuel rest
      (Nat.le_of_succ_le_succ hlevels) (by omega)
    simp only [chars, List.cons_append, List.append_assoc, List.nil_append]
    rw [value]
    simp only [skipSpace_newline, skipSpace_stringChars]
    split
    · next h => cases h
    · rw [hmembers]
      rfl

end ReadsBack

theorem readBytes_toUTF8 (s : String) : readBytes s.toUTF8 = read s := by
  have hbytes : String.fromUTF8? s.toUTF8 = some s := dif_pos s.isValidUTF8
  rw [readBytes, hbytes]

/-- A whole text is read back, with blanks neither before nor after the value. -/
theorem read_write {depth : Nat} {v : Value} (h : ReadsBack depth v) (hdepth : depth ≤ levelLimit) :
    read (write v) = .ok v := by
  have hstart := h.skipSpace_chars 0 []
  rw [List.append_nil] at hstart
  have hvalue := h 0 levelLimit ((chars 0 v).length + 1) [] hdepth (Nat.lt_succ_self _)
    endsNumber_nil
  rw [List.append_nil] at hvalue
  simp only [read, write, String.toList_ofList, hstart, hvalue]
  rfl

end Circulation.Json
