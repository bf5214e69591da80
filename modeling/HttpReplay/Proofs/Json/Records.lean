import HttpReplay.Json.Members
import HttpReplay.Proofs.Json.Texts

/-!
# JSON records are read back

A record that is written as an object is read back from it, if each of its members is read back
from its own value. What a value is read from is told apart from what follows it, which in an
object is a comma or the closing bracket; so numbers, whose end is only seen by what follows,
need no treatment of their own.

* `HttpReplay.Json.ReadsBack` – a value that is read back in an object;
* `HttpReplay.Json.readsBack_text` and `HttpReplay.Json.readsBack_natural` – texts and numbers;
* `HttpReplay.Json.Fills` – members that fill a draft one after the other;
* `HttpReplay.Json.whole_record_renderObject` – **a record is read back** from its line.
-/

namespace HttpReplay.Json

variable {α σ : Type} {cs rest : List Char}

/-! ### Values -/

/-- What follows a value in an object. -/
def EndsValue (rest : List Char) : Prop := rest.head? = some ',' ∨ rest.head? = some '}'

/-- **A value is read back** in an object, with what follows it kept. -/
def ReadsBack (read : List Char → Except Fault (α × List Char)) (written : List Char) (a : α) :
    Prop :=
  ∀ rest, EndsValue rest → read (written ++ rest) = .ok (a, rest)

theorem skipBlanks_cons {c : Char} (h : isBlank c = false) (cs : List Char) :
    skipBlanks (c :: cs) = c :: cs :=
  List.dropWhile_cons_of_neg (by rw [h]; exact Bool.false_ne_true)

theorem atValue_cons {c : Char} (h : isBlank c = false)
    (read : List Char → Except Fault (α × List Char)) (cs : List Char) :
    atValue read (c :: cs) = read (c :: cs) := by
  rw [atValue, skipBlanks_cons h]

theorem renderText_append (cs rest : List Char) :
    renderText cs ++ rest = '\x22' :: (cs.flatMap escapeChar ++ '\x22' :: rest) := by
  simp [renderText]

/-- **Texts are read back**, whatever follows. -/
theorem textOf_renderText (expected : String) (cs rest : List Char) :
    textOf expected (renderText cs ++ rest) = .ok (String.ofList cs, rest) := by
  rw [renderText_append, textOf, atValue_cons rfl]
  simp only [textTail_flatMap, bind, Except.bind]
  rfl

theorem readsBack_text (value : String) : ReadsBack text (renderText value.toList) value := by
  intro rest _
  rw [text, textOf_renderText, String.ofList_toList]

/-! ### Numbers -/

theorem digitsBelow_append {limit : Nat} {digits : List Char}
    (hdigits : ∀ c ∈ digits, c.isDigit = true) (hend : startsWithDigit rest = false)
    {value : Nat} (h : digits.foldl Numeral.addDigit value < limit) :
    digitsBelow limit value (digits ++ rest) =
      (digits.foldl Numeral.addDigit value, digits.length, rest) := by
  induction digits generalizing value with
  | nil =>
    cases rest with
    | nil => rfl
    | cons c cs =>
      have hc : c.isDigit = false := hend
      rw [List.nil_append, digitsBelow, hc, if_neg Bool.false_ne_true]
      rfl
  | cons c digits ih =>
    have hbelow : value * 10 + (c.toNat - 48) < limit :=
      Nat.lt_of_le_of_lt (Numeral.le_foldl_addDigit digits _) h
    have hrest := ih (fun d hd => hdigits d (List.mem_cons_of_mem c hd)) h
    rw [List.cons_append, digitsBelow, if_pos (hdigits c List.mem_cons_self)]
    simp only [if_pos hbelow]
    rw [show value * 10 + (c.toNat - 48) = Numeral.addDigit value c from rfl, hrest]
    rfl

theorem decimal_append_cases (n : Nat) (rest : List Char) :
    ∃ c cs, Numeral.decimal n ++ rest = c :: cs ∧ c.isDigit = true ∧ (n ≠ 0 → c ≠ '0') := by
  obtain ⟨c, cs, hcons⟩ := List.exists_cons_of_ne_nil
    (show Numeral.decimal n ≠ [] from Nat.toDigits_ne_nil)
  refine ⟨c, cs ++ rest, by rw [hcons, List.cons_append], ?_, fun hn hc => ?_⟩
  · exact Numeral.isDigit_of_mem_decimal (hcons ▸ List.mem_cons_self)
  · have hhead := Numeral.head?_decimal_ne_zero hn
    rw [hcons, hc] at hhead
    exact hhead rfl

/-- **A number is read back**, if nothing follows that would belong to it. -/
theorem number_decimal {n : Nat} (h : n < Numeral.wordLimit) (hend : startsWithDigit rest = false)
    (htail : realTail? false n 0 rest = none) :
    number false (Numeral.decimal n ++ rest) = .ok (.natural n, rest) := by
  by_cases hzero : n = 0
  · subst hzero
    have hwritten : Numeral.decimal 0 ++ rest = '0' :: rest := rfl
    rw [hwritten, number]
    simp only [hend, htail]
    rfl
  · obtain ⟨c, cs, hcons, hdigit, hne⟩ := decimal_append_cases n rest
    have hread : digitsBelow Numeral.wordLimit 0 (Numeral.decimal n ++ rest) =
        (n, (Numeral.decimal n).length, rest) := by
      have hvalue := Numeral.foldl_decimal n
      rw [digitsBelow_append (fun c hc => Numeral.isDigit_of_mem_decimal hc) hend
        (by rwa [hvalue]), hvalue]
    unfold number
    split
    · rename_i heq
      rw [hcons] at heq
      cases heq
    · rename_i heq
      rw [hcons] at heq
      exact absurd (List.cons.inj heq).1 (hne hzero)
    · have hstart : startsWithDigit (Numeral.decimal n ++ rest) = true := by
        rw [hcons]
        exact hdigit
      rw [if_pos hstart, hread]
      simp only [hend, htail]
      rfl

theorem isBlank_of_isDigit {c : Char} (h : c.isDigit = true) : isBlank c = false := by
  have hlow : 48 ≤ c.toNat := (Char.isDigit_iff_toNat.mp h).1
  simp only [isBlank, Bool.or_eq_false_iff, beq_eq_false_iff_ne]
  refine ⟨⟨⟨?_, ?_⟩, ?_⟩, ?_⟩ <;>
    · rintro rfl
      exact absurd hlow (by decide)

/-- A number is read as one from its first digit on. -/
theorem natural_of_number {expected : String} {limit n : Nat} {c : Char}
    (hdigit : c.isDigit = true) (hlimit : n < limit)
    (h : number false (c :: cs) = .ok (.natural n, rest)) :
    natural expected limit (c :: cs) = .ok (n, rest) := by
  have hstart : startsWithNumber (c :: cs) = true :=
    Bool.or_eq_true_iff.mpr (.inr hdigit)
  have hsigned : signedNumber (c :: cs) = number false (c :: cs) := by
    unfold signedNumber
    split
    · rename_i heq
      obtain rfl := (List.cons.inj heq).1
      exact absurd hdigit (by decide)
    · rfl
  rw [natural, atValue_cons (isBlank_of_isDigit hdigit), if_pos hstart, hsigned, h]
  simp only [bind, Except.bind, if_pos hlimit]
  rfl

/-- **Numbers are read back** in an object. -/
theorem readsBack_natural {expected : String} {limit n : Nat} (h : n < limit)
    (hlimit : limit ≤ Numeral.wordLimit) :
    ReadsBack (natural expected limit) (Numeral.decimal n) n := by
  intro rest hrest
  obtain ⟨d, ds, rfl, hd⟩ : ∃ d ds, rest = d :: ds ∧ (d = ',' ∨ d = '}') := by
    cases rest with
    | nil => simp [EndsValue] at hrest
    | cons d ds => exact ⟨d, ds, rfl, by simpa [EndsValue] using hrest⟩
  have hend : startsWithDigit (d :: ds) = false := by
    rcases hd with rfl | rfl <;> rfl
  have htail : realTail? false n 0 (d :: ds) = none := by
    rcases hd with rfl | rfl <;> rfl
  have hnumber := number_decimal (Nat.lt_of_lt_of_le h hlimit) hend htail
  obtain ⟨c, cs, hcons, hdigit, -⟩ := decimal_append_cases n (d :: ds)
  rw [hcons] at hnumber ⊢
  exact natural_of_number hdigit h hnumber

/-! ### Members -/

/-- **Members fill a draft** one after the other, each read back from its own value. -/
inductive Fills (step : σ → String → Member σ) : σ → List (String × List Char) → σ → Prop
  | nil {d : σ} : Fills step d [] d
  | cons {d e f : σ} {name : String} {written : List Char}
    {value : List Char → Except Fault (σ × List Char)} {members : List (String × List Char)} :
    step d name = .read value → ReadsBack value written e → Fills step e members f →
    Fills step d ((name, written) :: members) f

/-- A member that was not there before. -/
theorem Fills.once {step : σ → String → Member σ} {d f : σ} {name : String} {written : List Char}
    {value : List Char → Except Fault (α × List Char)} {set : α → σ} {a : α}
    {members : List (String × List Char)} (hstep : step d name = .once name none value set)
    (hread : ReadsBack value written a) (hrest : Fills step (set a) members f) :
    Fills step d ((name, written) :: members) f := by
  refine .cons hstep (fun rest hend => ?_) hrest
  simp only [hread rest hend, bind, Except.bind]
  rfl

/-- What stands in an object behind a member. -/
def tail (members : List (String × List Char)) (rest : List Char) : List Char :=
  members.flatMap (fun (name, value) => ',' :: renderMember name value) ++ '}' :: rest

theorem endsValue_tail (members : List (String × List Char)) (rest : List Char) :
    EndsValue (tail members rest) := by
  cases members with
  | nil => exact .inr rfl
  | cons m members => exact .inl rfl

theorem renderObject_cons (name : String) (value : List Char)
    (members : List (String × List Char)) (rest : List Char) :
    renderObject ((name, value) :: members) ++ rest =
      '{' :: (renderMember name value ++ tail members rest) := by
  have hjoin : ∀ (first : List Char) (others : List (List Char)),
      [','].intercalate (first :: others) = first ++ others.flatMap (',' :: ·) := by
    intro first others
    induction others generalizing first with
    | nil => simp
    | cons second others ih =>
      rw [List.intercalate_cons_cons, ih]
      simp
  simp [renderObject, tail, hjoin, List.flatMap_map]

/-- **A member is read back.** -/
theorem member_renderMember {step : σ → String → Member σ} {d e : σ} {name : String}
    {written : List Char} {value : List Char → Except Fault (σ × List Char)}
    (hstep : step d name = .read value) (hread : ReadsBack value written e)
    (hend : EndsValue rest) :
    ∃ cs, renderMember name written ++ rest = '\x22' :: cs ∧ member step d cs = .ok (e, rest) := by
  refine ⟨name.toList.flatMap escapeChar ++ '\x22' :: ':' :: (written ++ rest), ?_, ?_⟩
  · simp [renderMember, renderText]
  · have hcolon : colon (':' :: (written ++ rest)) = .ok (written ++ rest) := by
      rw [colon, skipBlanks_cons rfl]
      rfl
    simp only [member, textTail_flatMap, bind, Except.bind, String.ofList_toList, hstep, hcolon,
      hread rest hend]

/-- **Members are read back**, up to the closing bracket. -/
theorem membersUpTo_tail {step : σ → String → Member σ} {d e : σ}
    {members : List (String × List Char)} (h : Fills step d members e) (rest : List Char) {n : Nat}
    (hn : members.length < n) :
    membersUpTo step n false d (tail members rest) = .ok (e, '}' :: rest) := by
  induction h generalizing n with
  | nil =>
    obtain ⟨n, rfl⟩ := Nat.exists_eq_add_one_of_ne_zero (Nat.ne_of_gt hn)
    rfl
  | @cons d e f name written value members hstep hread _ ih =>
    obtain ⟨n, rfl⟩ := Nat.exists_eq_add_one_of_ne_zero (Nat.ne_of_gt (Nat.zero_lt_of_lt hn))
    obtain ⟨cs, hcs, hmember⟩ := member_renderMember hstep hread (endsValue_tail members rest)
    have htail : tail ((name, written) :: members) rest = ',' :: '\x22' :: cs := by
      rw [← hcs]
      simp [tail]
    have hname : nextName false (',' :: '\x22' :: cs) = .ok (.name cs) := rfl
    rw [htail, membersUpTo, hname]
    simp only [bind, Except.bind, hmember]
    exact ih (Nat.lt_of_succ_lt_succ hn)

/-- There are no more members than characters. -/
theorem length_le_length_tail (members : List (String × List Char)) (rest : List Char) :
    members.length ≤ (tail members rest).length := by
  rw [tail, List.length_append, List.length_flatMap]
  induction members with
  | nil => exact Nat.zero_le _
  | cons m members ih =>
    simp only [List.map_cons, List.sum_cons, List.length_cons] at ih ⊢
    omega

/-- **The members of an object are read back.** -/
theorem members_renderObject {step : σ → String → Member σ} {d e f : σ} {name : String}
    {written : List Char} {value : List Char → Except Fault (σ × List Char)}
    {others : List (String × List Char)} (hstep : step d name = .read value)
    (hread : ReadsBack value written e) (hrest : Fills step e others f) (rest : List Char) :
    members step d (renderMember name written ++ tail others rest) = .ok (f, '}' :: rest) := by
  obtain ⟨cs, hcs, hmember⟩ := member_renderMember hstep hread (endsValue_tail others rest)
  have hname : nextName true ('\x22' :: cs) = .ok (.name cs) := rfl
  have hlength : others.length < (renderMember name written ++ tail others rest).length := by
    have hle := length_le_length_tail others rest
    have hpos : 0 < (renderMember name written).length := by simp [renderMember, renderText]
    rw [List.length_append]
    omega
  rw [members, hcs] at *
  rw [membersUpTo, hname]
  simp only [bind, Except.bind, hmember]
  exact membersUpTo_tail hrest rest hlength

/-! ### Records -/

/-- **A record is read back** from the text of an object with members. -/
theorem record_renderObject {shape : RecordShape σ α} {members : List (String × List Char)} {d : σ}
    {a : α} (hfills : Fills shape.step shape.empty members d) (hne : members ≠ [])
    (hfinish : shape.finish d = .ok a) (rest : List Char) :
    record shape (renderObject members ++ rest) = .ok (a, rest) := by
  cases hfills with
  | nil => exact absurd rfl hne
  | cons hstep hread hrest =>
    have hmembers := members_renderObject hstep hread hrest rest
    have hbehind : behind '}' ('}' :: rest) = rest := rfl
    rw [renderObject_cons, record, atValue_cons rfl]
    simp only [hmembers, bind, Except.bind, hbehind, hfinish]
    rfl

/-- **A line is read back.** -/
theorem whole_record_renderObject {shape : RecordShape σ α} {members : List (String × List Char)}
    {d : σ} {a : α} (hfills : Fills shape.step shape.empty members d) (hne : members ≠ [])
    (hfinish : shape.finish d = .ok a) :
    whole (record shape) (String.ofList (renderObject members)) = .ok a := by
  have hrecord := record_renderObject hfills hne hfinish []
  rw [List.append_nil] at hrecord
  rw [whole, String.toList_ofList, hrecord]
  rfl

/-! ### Lines -/

/-- **An object stays on one line** if its values do. -/
theorem newline_notMem_renderObject {members : List (String × List Char)}
    (h : ∀ m ∈ members, '\n' ∉ m.2) : '\n' ∉ renderObject members := by
  have hmember : ∀ m ∈ members, '\n' ∉ renderMember m.1 m.2 := by
    intro m hm hmem
    rcases List.mem_append.mp hmem with hmem | hmem
    · exact newline_notMem_renderText _ hmem
    · rcases List.mem_cons.mp hmem with heq | hmem
      · exact absurd heq (by decide)
      · exact h m hm hmem
  have htail : ∀ others : List (String × List Char), (∀ m ∈ others, m ∈ members) →
      '\n' ∉ tail others [] := by
    intro others hsub hmem
    rcases List.mem_append.mp hmem with hmem | hmem
    · obtain ⟨m, hm, hmem⟩ := List.mem_flatMap.mp hmem
      rcases List.mem_cons.mp hmem with heq | hmem
      · exact absurd heq (by decide)
      · exact hmember m (hsub m hm) hmem
    · exact absurd hmem (by decide)
  cases members with
  | nil => decide
  | cons m others =>
    rw [← List.append_nil (renderObject (m :: others)), renderObject_cons]
    intro hmem
    rcases List.mem_cons.mp hmem with heq | hmem
    · exact absurd heq (by decide)
    · rcases List.mem_append.mp hmem with hmem | hmem
      · exact hmember m List.mem_cons_self hmem
      · exact htail others (fun m hm => List.mem_cons_of_mem _ hm) hmem

theorem newline_notMem_decimal (n : Nat) : '\n' ∉ Numeral.decimal n := fun h =>
  absurd (Numeral.isDigit_of_mem_decimal h) (by decide)

theorem head?_renderObject (members : List (String × List Char)) :
    (renderObject members).head? = some '{' := rfl

theorem getLast?_renderObject (members : List (String × List Char)) :
    (renderObject members).getLast? = some '}' := by
  rw [renderObject, List.getLast?_append]
  rfl

end HttpReplay.Json
