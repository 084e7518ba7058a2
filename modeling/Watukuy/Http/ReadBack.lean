import Watukuy.Http.StructuredFields

/-!
# Reading structured rate-limit headers back

What `parseRateLimitHeaders` finds in a header written from members. The splitters agree with the
writing for every name, but `parseMember` looks for `=` inside a quoted name too, and takes such a
name for a parameter.
-/

set_option autoImplicit false

namespace Watukuy.RateLimit

open Library OrderedMap

variable {known : List Param}

/-! ## The parts of a header -/

/-- The parts of a member, from the end of a part with spaces before it on. -/
theorem split_lines (lines : List Line) {p b : List Char} (hp : ∀ c ∈ p, isSpace c = true)
    (hb : Solid isSpace b) :
    (splitFrom ';' false (p ++ b) (lines.flatMap Line.text)).map (trim isSpace) =
      b :: lines.map Line.body := by
  induction lines generalizing p b with
  | nil =>
      rw [List.flatMap_nil, splitFrom, List.map_singleton, trim_front hp hb, List.map_nil]
  | cons l lines ih =>
      have hcut : splitFrom ';' false (p ++ b) (l.text ++ lines.flatMap Line.text) =
          (p ++ b ++ l.before.text) ::
            splitFrom ';' false (l.after.text ++ l.body) (lines.flatMap Line.text) := by
        rw [Line.text, List.append_assoc, l.before.uncut (.inr rfl), List.cons_append,
          splitFrom_separator (by decide),
          ((l.after.uncut (.inr rfl)).append (l.body_uncut (.inr rfl))), List.nil_append]
      rw [List.flatMap_cons, hcut, List.map_cons, trim_padded hp hb l.before.space,
        ih l.after.space l.body_solid, List.map_cons]

/-- A list of solid parts loses nothing to the filter of `splitQuoted`. -/
theorem filter_solid {parts : List (List Char)} (h : ∀ p ∈ parts, Solid isSpace p) :
    (parts.filter fun p => p ≠ []) = parts := by
  refine List.filter_eq_self.2 fun p hp => ?_
  simpa using (h p hp).ne_nil

/-- The segments of a member are its quoted name and its parameters. -/
theorem Member.segments (m : Member known) :
    splitQuoted m.core ';' = quoted m.name :: m.lines.map Line.body := by
  have hparts := split_lines m.lines (p := []) (by simp) (solid_quoted m.name)
  rw [splitQuoted, Member.core, uncut_quoted (by decide), hparts]
  refine filter_solid fun p hp => ?_
  rcases List.mem_cons.1 hp with rfl | hline
  · exact solid_quoted m.name
  · obtain ⟨l, -, rfl⟩ := List.mem_map.1 hline
    exact l.body_solid

theorem splitFrom_intercalate {texts : List (List Char)} (hne : texts ≠ [])
    (h : ∀ t ∈ texts, Uncut ',' t) :
    splitFrom ',' false [] ([','].intercalate texts) = texts := by
  induction texts with
  | nil => exact absurd rfl hne
  | cons t texts ih =>
      have ht := h t List.mem_cons_self
      cases texts with
      | nil => rw [List.intercalate_singleton, ht.last, List.nil_append]
      | cons t' texts =>
          rw [List.intercalate_cons_cons, List.append_assoc, ht, List.nil_append,
            List.cons_append, List.nil_append, splitFrom_separator (by decide),
            ih (by simp) fun u hu => h u (List.mem_cons_of_mem t hu)]

/-- The members of a header, without the spaces around them. -/
theorem splitQuoted_intercalate {texts : List (List Char)} (hne : texts ≠ [])
    (h : ∀ t ∈ texts, Uncut ',' t) (hsolid : ∀ t ∈ texts, Solid isSpace (trim isSpace t)) :
    splitQuoted ([','].intercalate texts) ',' = texts.map (trim isSpace) := by
  rw [splitQuoted, splitFrom_intercalate hne h]
  refine filter_solid fun p hp => ?_
  obtain ⟨t, ht, rfl⟩ := List.mem_map.1 hp
  exact hsolid t ht

/-! ## The segments of a member -/

def Value.read (v : Value) : List Char := unquote v.text

@[simp] theorem Value.read_number (n : ℕ) : (Value.number n).read = Nat.toDigits 10 n :=
  unquote_bare (digits n)

/-- What `parseMember` does with a parameter. -/
def Param.file (member : StructuredMember) (p : Param) : StructuredMember :=
  match p.value with
  | none => { member with name := member.name.or (some p.key.text) }
  | some v =>
      if (member.params.get p.filed).isSome then member
      else { member with params := member.params.set p.filed v.read }

theorem idxOf_equals {front : List Char} (h : '=' ∉ front) (rest : List Char) :
    (front ++ '=' :: rest).idxOf? '=' = some front.length := by
  induction front with
  | nil => simp [List.idxOf?_cons]
  | cons c front ih =>
      rw [List.mem_cons, not_or] at h
      rw [List.cons_append, List.idxOf?_cons, ih h.2]
      simp [Ne.symm h.1]

/-- A segment with a `=` is a parameter. -/
theorem addSegment_equals (member : StructuredMember) {front : List Char} (h : '=' ∉ front)
    (rest : List Char) :
    addSegment member (front ++ '=' :: rest) =
      let key := (trim isSpace front).map lowerCase
      if key = [] ∨ (member.params.get key).isSome then member
      else { member with params := member.params.set key (unquote (trim isSpace rest)) } := by
  have htake : (front ++ '=' :: rest).take front.length = front := List.take_left' rfl
  have hdrop : (front ++ '=' :: rest).drop (front.length + 1) = rest := by
    simp [List.drop_append]
  rw [addSegment, idxOf_equals h]
  simp only [htake, hdrop]

theorem addSegment_bare (member : StructuredMember) {segment : List Char} (h : '=' ∉ segment) :
    addSegment member segment =
      { member with name := member.name.or (some (unquote segment)) } := by
  rw [addSegment, List.idxOf?_eq_none_iff.2 h]

theorem Pad.noEquals (p : Pad) : '=' ∉ p.text := by
  intro h
  rcases p.blank _ h with heq | heq <;> exact absurd heq (by decide)

/-- A written parameter is filed under its key, and a flag stands for a name. -/
theorem addSegment_body (member : StructuredMember) (l : Line) :
    addSegment member l.body = l.param.file member := by
  rw [Line.body, Param.file]
  cases l.param.value with
  | none =>
      rw [addSegment_bare member l.param.key.noEquals, unquote_bare]
  | some v =>
      have hfront : '=' ∉ l.param.key.text ++ l.beforeEquals.text := by
        rw [List.mem_append, not_or]
        exact ⟨l.param.key.noEquals, l.beforeEquals.noEquals⟩
      have hkey : l.param.filed ≠ [] := by
        rw [Param.filed, Ne, List.map_eq_nil_iff]
        exact l.param.key.nonempty
      rw [addSegment_equals member hfront, trim_back l.param.key.solid l.beforeEquals.space,
        trim_front l.afterEquals.space v.solid]
      simp only [show l.param.key.text.map lowerCase = l.param.filed from rfl, hkey, false_or]
      rfl

theorem mem_quoted {c : Char} (hq : c ≠ '"') (hb : c ≠ '\\') (s : List Char) :
    c ∈ quoted s ↔ c ∈ s := by
  have hesc (d : Char) : c ∈ escapeChar d ↔ c = d := by
    rw [escapeChar]
    split <;> simp [hb]
  simp [quoted, hq, hesc]

/-- The quoted name is the name of the member, unless it has a `=`. -/
theorem addSegment_name {name : List Char} (h : '=' ∉ name) :
    addSegment ⟨none, .empty⟩ (quoted name) = ⟨some name, .empty⟩ := by
  rw [addSegment_bare _ fun hmem => h ((mem_quoted (by decide) (by decide) name).1 hmem),
    unquote_quoted, Option.none_or]

theorem lowerCase_quote : lowerCase '"' = '"' := by
  decide

/-- A quoted name with a `=` is filed as a parameter whose key starts with a quote. -/
theorem addSegment_nameless {name : List Char} (h : '=' ∈ name) :
    (addSegment ⟨none, .empty⟩ (quoted name)).name = none ∧
      ∀ k, k.head? ≠ some '"' →
        (addSegment ⟨none, .empty⟩ (quoted name)).params.get k = none := by
  have hmem : '=' ∈ quoted name := (mem_quoted (by decide) (by decide) name).2 h
  obtain ⟨front, rest, heq, hfront⟩ := List.eq_append_cons_of_mem hmem
  have hhead : front.head? = some '"' := by
    cases front with
    | nil =>
        have hquote : '"' = '=' := congrArg List.head? heq |> Option.some.inj
        exact absurd hquote (by decide)
    | cons c front => exact (congrArg List.head? heq).symm
  have hkey : ((trim isSpace front).map lowerCase).head? = some '"' := by
    rw [List.head?_map, head?_trim hhead (by decide), Option.map_some, lowerCase_quote]
  rw [heq, addSegment_equals _ hfront]
  dsimp only
  split
  · exact ⟨rfl, fun k _ => get_empty k⟩
  · refine ⟨rfl, fun k hk => ?_⟩
    rw [get_set_ne _ fun h => hk (by rw [h, hkey]), get_empty]

/-! ## A member read back -/

/-- The first parameter without a value. -/
def firstFlag (params : List Param) : Option (List Char) :=
  params.findSome? fun p => if p.value.isNone then some p.key.text else none

/-- What the parser takes for the name of a member. -/
def Member.label (m : Member known) : Option (List Char) :=
  if '=' ∈ m.name then firstFlag (m.lines.map Line.param) else some m.name

theorem foldl_file_name (params : List Param) (member : StructuredMember) :
    (params.foldl Param.file member).name = member.name.or (firstFlag params) := by
  induction params generalizing member with
  | nil => rw [firstFlag, List.findSome?_nil, Option.or_none, List.foldl_nil]
  | cons p params ih =>
      have hflag : firstFlag (p :: params) =
          (if p.value.isNone then some p.key.text else none).or (firstFlag params) := by
        rw [firstFlag, List.findSome?_cons]
        split <;> rename_i heq <;> rw [heq] <;> rfl
      rw [List.foldl_cons, ih, hflag, Param.file]
      cases p.value with
      | none => rw [← Option.or_assoc]; rfl
      | some v =>
          dsimp only
          split <;> rfl

/-- A parameter that is filed stays. -/
theorem foldl_file_get (params : List Param) {member : StructuredMember} {k v : List Char}
    (h : member.params.get k = some v) :
    (params.foldl Param.file member).params.get k = some v := by
  induction params generalizing member with
  | nil => exact h
  | cons p params ih =>
      rw [List.foldl_cons]
      refine ih ?_
      rw [Param.file]
      cases p.value with
      | none => exact h
      | some w =>
          dsimp only
          split
          · exact h
          · rename_i hfree
            have hne : k ≠ p.filed := by
              rintro rfl
              exact hfree (by simp [h])
            rw [get_set_ne _ hne, h]

/-- The value of a parameter that has its key for itself. -/
theorem foldl_file_of_mem {params : List Param} {member : StructuredMember} {p : Param} {v : Value}
    (hp : p ∈ params) (hv : p.value = some v)
    (honly : ∀ q ∈ params, q.filed = p.filed → q = p)
    (hfree : member.params.get p.filed = none) :
    (params.foldl Param.file member).params.get p.filed = some v.read := by
  induction params generalizing member with
  | nil => cases hp
  | cons q params ih =>
      rw [List.foldl_cons]
      by_cases hq : q.filed = p.filed
      · have hpq : q = p := honly q List.mem_cons_self hq
        subst hpq
        refine foldl_file_get params ?_
        rw [Param.file, hv]
        simp [hfree]
      · have hrest : p ∈ params :=
          (List.mem_cons.1 hp).resolve_left fun h => hq (by rw [h])
        refine ih hrest (fun r hr => honly r (List.mem_cons_of_mem q hr)) ?_
        rw [Param.file]
        cases q.value with
        | none => exact hfree
        | some w =>
            dsimp only
            split
            · exact hfree
            · rw [get_set_ne _ (Ne.symm hq), hfree]

theorem foldl_addSegment (lines : List Line) (member : StructuredMember) :
    (lines.map Line.body).foldl addSegment member =
      (lines.map Line.param).foldl Param.file member := by
  rw [List.foldl_map, List.foldl_map]
  congr 1
  funext member l
  exact addSegment_body member l

theorem Member.parsed (m : Member known) :
    parseMember m.core = (m.lines.map Line.param).foldl Param.file
      (addSegment ⟨none, .empty⟩ (quoted m.name)) := by
  rw [parseMember, m.segments, List.foldl_cons, foldl_addSegment]

theorem Member.parsed_name (m : Member known) : (parseMember m.core).name = m.label := by
  rw [m.parsed, foldl_file_name, label]
  by_cases h : '=' ∈ m.name
  · rw [if_pos h, (addSegment_nameless h).1, Option.none_or]
  · rw [if_neg h, addSegment_name h, Option.some_or]

/-- A known parameter is read back, wherever it stands among the others. -/
theorem Member.parsed_param (m : Member known) {k : Param} {v : Value} (hk : k ∈ known)
    (hv : k.value = some v) (honly : ∀ q ∈ known, q.filed = k.filed → q = k)
    (hquote : k.filed.head? ≠ some '"') :
    (parseMember m.core).params.get k.filed = some v.read := by
  rw [m.parsed]
  refine foldl_file_of_mem (m.anyOrder.mem_iff.2 (List.mem_append_left _ hk)) hv ?_ ?_
  · intro q hq heq
    rcases List.mem_append.1 (m.anyOrder.mem_iff.1 hq) with hknown | hextra
    · exact honly q hknown heq
    · exact absurd heq (m.unknown q hextra k hk)
  · by_cases h : '=' ∈ m.name
    · exact (addSegment_nameless h).2 _ hquote
    · rw [addSegment_name h, get_empty]

/-! ## A header of one member -/

theorem foldl_entries_get (entries : List (List Char × List Char))
    (params : OrderedMap (List Char) (List Char)) (k : List Char) :
    (entries.foldl (fun params entry =>
        if (params.get entry.1).isSome then params else params.set entry.1 entry.2) params).get k =
      (params.get k).or (find k entries) := by
  induction entries generalizing params with
  | nil => rw [List.foldl_nil, find, Option.or_none]
  | cons e entries ih =>
      obtain ⟨a, b⟩ := e
      rw [List.foldl_cons, ih, find]
      dsimp only
      by_cases hk : a = k
      · subst hk
        cases hget : params.get a with
        | none => simp
        | some w => simp [hget]
      · rw [if_neg hk]
        split
        · rfl
        · rw [get_set_ne _ (Ne.symm hk)]

/-- The only member of a header is merged as it is. -/
theorem mergeMember_empty (raw : List Char) :
    (mergeMember ⟨none, .empty⟩ raw).name = (parseMember raw).name ∧
      ∀ k, (mergeMember ⟨none, .empty⟩ raw).params.get k = (parseMember raw).params.get k := by
  refine ⟨Option.none_or, fun k => ?_⟩
  rw [mergeMember]
  dsimp only
  rw [foldl_entries_get, get_empty, Option.none_or, OrderedMap.get]

theorem Member.splitQuoted_text (m : Member known) : splitQuoted m.text ',' = [m.core] := by
  have hsplit := splitQuoted_intercalate (List.cons_ne_nil m.text [])
    (fun t ht => by obtain rfl := List.mem_singleton.1 ht; exact m.text_uncut)
    (fun t ht => by
      obtain rfl := List.mem_singleton.1 ht
      rw [m.trim_text]
      exact m.core_solid)
  rwa [List.intercalate_singleton, List.map_singleton, m.trim_text] at hsplit

/-! ## Numbers read back -/

theorem leadingNumber_digits (n : ℕ) : leadingNumber (some (Nat.toDigits 10 n)) = some (n : ℚ) := by
  have hdigit : ∀ c ∈ Nat.toDigits 10 n, c.isDigit = true := fun c hc =>
    Nat.isDigit_of_mem_toDigits (by decide) (by decide) hc
  have htrim : (Nat.toDigits 10 n).dropWhile isSpace = Nat.toDigits 10 n :=
    dropWhile_solid (digits n).solid
  have htake : (Nat.toDigits 10 n).takeWhile Char.isDigit = Nat.toDigits 10 n :=
    List.takeWhile_eq_self_iff.2 hdigit
  have hdrop : (Nat.toDigits 10 n).dropWhile Char.isDigit = [] :=
    List.dropWhile_eq_nil_iff.2 hdigit
  rw [leadingNumber, Option.bind_some, htrim, decimalFront, htake, hdrop]
  simp [Nat.toDigits_ne_nil, Nat.ofDigitChars_ten_toDigits]

theorem round_natCast (n : ℕ) : round (n : ℚ) = n := by
  have hfloor : ⌊(n : ℚ) + 1 / 2⌋ = (n : ℤ) := by
    rw [Int.floor_eq_iff]
    constructor
    · push_cast
      linarith
    · push_cast
      linarith
  rw [round, hfloor]
  norm_cast

/-! ## Advertised policies -/

def tokenOf (c : Char) (h : plainChar c = true ∧ c ≠ '=') : Token where
  text := [c]
  nonempty := by simp
  plain := by simpa using h.1
  noEquals := by simpa using h.2.symm

/-- The parameter `c=n`. -/
def counted (c : Char) (h : plainChar c = true ∧ c ≠ '=') (n : ℕ) : Param :=
  ⟨tokenOf c h, some (.number n)⟩

/-- A member of `RateLimit-Policy`: `<name>;q=<quota>;w=<window>`. -/
structure AdvertisedPolicy where
  quota : ℕ
  window : ℕ
  member : Member [counted 'q' (by decide) quota, counted 'w' (by decide) window]

/-- The value of `RateLimit`: `<name>;r=<remaining>;t=<reset>`. -/
structure Report where
  remaining : ℕ
  reset : ℕ
  member : Member [counted 'r' (by decide) remaining, counted 't' (by decide) reset]

/-- What a server sends: policies with distinct names, and the report for one of them. -/
structure Advertisement where
  policies : List AdvertisedPolicy
  distinct : (policies.map fun p => p.member.name).Nodup
  named : AdvertisedPolicy
  advertised : named ∈ policies
  report : Report
  sameName : report.member.name = named.member.name

def Advertisement.policyText (a : Advertisement) : List Char :=
  [','].intercalate (a.policies.map fun p => p.member.text)

/-- The policy that the parser takes for the reported one: the first with the label of the report,
or else the first of all. -/
def Advertisement.taken (a : Advertisement) : Option AdvertisedPolicy :=
  (a.report.member.label.bind fun n =>
    a.policies.find? fun p => p.member.label = some n).or a.policies.head?

/-- Two counted parameters under different keys are both read back. -/
theorem Member.parsed_pair {c d : Char} {hc : plainChar c = true ∧ c ≠ '='}
    {hd : plainChar d = true ∧ d ≠ '='} {n k : ℕ} (m : Member [counted c hc n, counted d hd k])
    (hne : lowerCase c ≠ lowerCase d) (hquote : lowerCase c ≠ '"' ∧ lowerCase d ≠ '"') :
    (parseMember m.core).params.get [lowerCase c] = some (Nat.toDigits 10 n) ∧
      (parseMember m.core).params.get [lowerCase d] = some (Nat.toDigits 10 k) := by
  constructor
  · have h := m.parsed_param (k := counted c hc n) List.mem_cons_self rfl
      (by
        intro q hq heq
        rcases List.mem_pair.1 hq with rfl | rfl
        · rfl
        · exact absurd (List.cons.inj heq).1.symm hne)
      fun heq => hquote.1 (Option.some.inj heq)
    rwa [Value.read_number] at h
  · have h := m.parsed_param (k := counted d hd k) (List.mem_cons_of_mem _ List.mem_cons_self) rfl
      (by
        intro q hq heq
        rcases List.mem_pair.1 hq with rfl | rfl
        · exact absurd (List.cons.inj heq).1 hne
        · rfl)
      fun heq => hquote.2 (Option.some.inj heq)
    rwa [Value.read_number] at h

theorem AdvertisedPolicy.parsed_quota (p : AdvertisedPolicy) :
    (parseMember p.member.core).params.get ['q'] = some (Nat.toDigits 10 p.quota) :=
  (p.member.parsed_pair (by decide) (by decide)).1

theorem Report.parsed_remaining (r : Report) :
    (parseMember r.member.core).params.get ['r'] = some (Nat.toDigits 10 r.remaining) :=
  (r.member.parsed_pair (by decide) (by decide)).1

theorem Report.parsed_reset (r : Report) :
    (parseMember r.member.core).params.get ['t'] = some (Nat.toDigits 10 r.reset) :=
  (r.member.parsed_pair (by decide) (by decide)).2

theorem Advertisement.splitQuoted_policyText (a : Advertisement) :
    splitQuoted a.policyText ',' = a.policies.map fun p => p.member.core := by
  have hne : a.policies.map (fun p => p.member.text) ≠ [] :=
    List.ne_nil_of_mem (List.mem_map.2 ⟨a.named, a.advertised, rfl⟩)
  rw [policyText, splitQuoted_intercalate hne, List.map_map]
  · exact List.map_congr_left fun p _ => p.member.trim_text
  · intro t ht
    obtain ⟨p, -, rfl⟩ := List.mem_map.1 ht
    exact p.member.text_uncut
  · intro t ht
    obtain ⟨p, -, rfl⟩ := List.mem_map.1 ht
    rw [p.member.trim_text]
    exact p.member.core_solid

/-- The parser chooses the member of the policy it takes for the reported one. -/
theorem Advertisement.chosen (a : Advertisement) :
    chosenMember a.report.member.label (a.policies.map fun p => parseMember p.member.core) =
      a.taken.map fun p => parseMember p.member.core := by
  rw [chosenMember, taken, List.head?_map, Option.map_or]
  congr 1
  cases a.report.member.label with
  | none => rfl
  | some n =>
      rw [Option.bind_some, Option.bind_some, List.find?_map]
      congr 2
      funext p
      simp [p.member.parsed_name]

theorem Advertisement.exists_taken (a : Advertisement) : ∃ p, a.taken = some p := by
  have hne : a.policies ≠ [] := List.ne_nil_of_mem a.advertised
  obtain ⟨first, hfirst⟩ := Option.isSome_iff_exists.1 (List.isSome_head?.2 hne)
  rw [taken, hfirst]
  cases a.report.member.label.bind fun n =>
      a.policies.find? fun p => p.member.label = some n with
  | none => exact ⟨first, rfl⟩
  | some p => exact ⟨p, rfl⟩

theorem Member.label_of_noEquals {m : Member known} (h : '=' ∉ m.name) :
    m.label = some m.name :=
  if_neg h

/-- As long as no name has a `=`, the parser takes the reported policy. -/
theorem Advertisement.taken_of_noEquals (a : Advertisement)
    (h : ∀ p ∈ a.policies, '=' ∉ p.member.name) : a.taken = some a.named := by
  have hreport : a.report.member.label = some a.named.member.name := by
    rw [Member.label_of_noEquals (by rw [a.sameName]; exact h a.named a.advertised), a.sameName]
  have hfound : (a.policies.find? fun p => p.member.label = some a.named.member.name) =
      some a.named := by
    cases hfind : a.policies.find? fun p => p.member.label = some a.named.member.name with
    | none =>
        have hnot := List.find?_eq_none.1 hfind a.named a.advertised
        simp [Member.label_of_noEquals (h a.named a.advertised)] at hnot
    | some p =>
        have hp := List.mem_of_find?_eq_some hfind
        have hlabel : p.member.label = some a.named.member.name := by
          simpa using List.find?_some hfind
        rw [Member.label_of_noEquals (h p hp), Option.some.injEq] at hlabel
        rw [List.inj_on_of_nodup_map a.distinct hp a.advertised hlabel]
  rw [taken, hreport, Option.bind_some, hfound, Option.some_or]

/-- What the parser makes of the two headers. -/
theorem Advertisement.parsed (a : Advertisement) (headers : Headers) (now : ℚ)
    (hlimit : headers "ratelimit" = some a.report.member.text)
    (hpolicy : headers "ratelimit-policy" = some a.policyText) {p : AdvertisedPolicy}
    (hp : a.taken = some p) :
    parseRateLimitHeaders headers now =
      some ⟨.ietf, some p.quota, some a.report.remaining,
        some (now + 1000 * a.report.reset), some a.policyText⟩ := by
  have hmerge := mergeMember_empty a.report.member.core
  have hreset : round ((a.report.reset : ℚ) * 1000) = 1000 * a.report.reset := by
    have := round_natCast (a.report.reset * 1000)
    push_cast at this
    rw [this, mul_comm]
  have hietf : parseIetf headers now = some ⟨.ietf, some p.quota, some a.report.remaining,
      some (now + 1000 * a.report.reset), some a.policyText⟩ := by
    rw [parseIetf, hlimit, hpolicy]
    simp only [reduceCtorEq, false_and, if_false, a.report.member.splitQuoted_text,
      List.foldl_cons, List.foldl_nil, hmerge.2, hmerge.1, a.report.member.parsed_name,
      show "r".toList = ['r'] from rfl, show "t".toList = ['t'] from rfl,
      show "q".toList = ['q'] from rfl, a.report.parsed_remaining, a.report.parsed_reset,
      Option.some_or, leadingNumber_digits, Option.map_some, hreset, Option.bind_some,
      a.splitQuoted_policyText, List.map_map]
    have hchosen := a.chosen
    rw [hp] at hchosen
    simp only [Function.comp_def, hchosen, Option.map_some, Option.bind_some, p.parsed_quota,
      Option.some_or, leadingNumber_digits]
    rfl
  rw [parseRateLimitHeaders, hietf, Option.some_or]

/-- A report is read back, with the quota of its policy, exactly when the policy the parser takes
for the reported one has that quota. -/
theorem rate_limit_read_back_iff (a : Advertisement) (headers : Headers) (now : ℚ)
    (hlimit : headers "ratelimit" = some a.report.member.text)
    (hpolicy : headers "ratelimit-policy" = some a.policyText) :
    (∃ info, parseRateLimitHeaders headers now = some info ∧
        info.remaining = some (a.report.remaining : ℚ) ∧
        info.resetAt = some (now + 1000 * a.report.reset) ∧
        info.limit = some (a.named.quota : ℚ)) ↔
      ∃ p, a.taken = some p ∧ p.quota = a.named.quota := by
  obtain ⟨p, hp⟩ := a.exists_taken
  rw [a.parsed headers now hlimit hpolicy hp]
  constructor
  · rintro ⟨info, hinfo, -, -, hquota⟩
    obtain rfl := Option.some.inj hinfo
    refine ⟨p, hp, ?_⟩
    exact_mod_cast Option.some.inj hquota
  · rintro ⟨p', hp', hquota⟩
    obtain rfl : p = p' := Option.some.inj (hp.symm.trans hp')
    exact ⟨_, rfl, rfl, rfl, by rw [hquota]⟩

/-! ### Two policies, and a report for the second -/

def noPad : Pad := ⟨[], by simp⟩

def lineOf (p : Param) : Line := ⟨p, noPad, noPad, noPad, noPad⟩

/-- `"<name>";c=n;d=k`. -/
def memberOf (name : List Char) (known : List Param) : Member known where
  name
  extras := []
  unknown := by simp
  lines := known.map lineOf
  anyOrder := by simp [lineOf, Function.comp_def]
  before := noPad
  after := noPad

def policyOf (name : List Char) (quota : ℕ) : AdvertisedPolicy := ⟨quota, 60, memberOf name _⟩

def advertisementOf (name : List Char) (h : name ≠ ['a']) : Advertisement where
  policies := [policyOf ['a'] 1, policyOf name 2]
  distinct := by simpa [policyOf, memberOf] using h.symm
  named := policyOf name 2
  advertised := by simp
  report := ⟨5, 7, memberOf name _⟩
  sameName := rfl

def Advertisement.headers (a : Advertisement) : Headers := fun name =>
  if name = "ratelimit" then some a.report.member.text
  else if name = "ratelimit-policy" then some a.policyText
  else none

/-- A name with separators, quotes and backslashes in it is read back. -/
theorem rate_limit_read_back_sample :
    ∃ info, parseRateLimitHeaders (advertisementOf ['b', ';', ',', '"', '\\'] (by decide)).headers 0 =
        some info ∧
      info.remaining = some 5 ∧ info.resetAt = some (0 + 1000 * 7) ∧ info.limit = some 2 :=
  (rate_limit_read_back_iff (advertisementOf ['b', ';', ',', '"', '\\'] (by decide)) _ 0 rfl rfl).2
    ⟨policyOf ['b', ';', ',', '"', '\\'] 2, rfl, rfl⟩

/-- Under the name `b=c` the quota of the first policy is reported for the second. -/
theorem equals_in_name_misread :
    ∃ info, parseRateLimitHeaders (advertisementOf ['b', '=', 'c'] (by decide)).headers 0 =
        some info ∧
      info.limit = some 1 ∧
      info.limit ≠ some ((advertisementOf ['b', '=', 'c'] (by decide)).named.quota : ℚ) := by
  let a := advertisementOf ['b', '=', 'c'] (by decide)
  have htaken : a.taken = some (policyOf ['a'] 1) := rfl
  refine ⟨_, a.parsed a.headers 0 rfl rfl htaken, by simp [policyOf], ?_⟩
  decide

end Watukuy.RateLimit
