import Watukuy.Library.Base64
import Watukuy.Library.Sha256
import Watukuy.Core.Duration
import Watukuy.Diff.EventId
import Mathlib.Algebra.Order.Group.Unbundled.Abs

/-!
# Signed webhooks

`sinks/webhook.ts`: a delivery is signed over its id, its time and its body, and a receiver checks any
`v1` entry of the signature header against the same three. HMAC-SHA256 is the platform's, so it is a
parameter. What the sink sends is accepted while the clocks agree to the tolerance; under a keyed
digest without collisions nothing else is accepted.
-/

set_option autoImplicit false

namespace Watukuy

open Library RateLimit

/-- The bytes of `TextEncoder`. -/
def utf8 (text : String) : List UInt8 := text.toUTF8.data.toList

/-- The keyed digest of the platform. -/
abbrev Hmac := List UInt8 → List UInt8 → List UInt8

/-! ## Secrets -/

/-- `WEBHOOK_SECRET_PREFIX`. -/
def webhookSecretPrefix : String := "whsec_"

def decodeWebhookSecret (secret : String) : Except JsError (List UInt8) :=
  if webhookSecretPrefix.toList.isPrefixOf secret.toList then
    match Base64.decode (secret.toList.drop webhookSecretPrefix.length) with
    | some bytes => .ok bytes
    | none =>
      .error (configError
        ("webhook secret: text after '" ++ webhookSecretPrefix ++ "' is not valid base64"))
  else .ok (utf8 secret)

/-- `importHmacKey`: the platform takes no empty key. -/
def importHmacKey (secret : List UInt8) : Except JsError (List UInt8) :=
  if secret = [] then
    .error { kind := .plain, name := "DataError", message := "Zero-length key is not supported" }
  else .ok secret

/-! ## Signing -/

def signedContent (id timestamp body : String) : String := id ++ "." ++ timestamp ++ "." ++ body

/-- The characters of `v1,` and the digest. -/
def signatureEntry (mac : List UInt8) : List Char := "v1,".toList ++ Base64.encode mac

/-- `signWithKey`. -/
def signWithKey (hmac : Hmac) (key : List UInt8) (content : String) : String :=
  String.ofList (signatureEntry (hmac key (utf8 content)))

/-- `timestamp` is the text of what is given: a text, or a number. -/
def signWebhook (hmac : Hmac) (secret id timestamp body : String) : Except JsError String := do
  let bytes ← decodeWebhookSecret secret
  let key ← importHmacKey bytes
  return signWithKey hmac key (signedContent id timestamp body)

/-! ## Verifying -/

/-- `parseTimestamp`: one to fifteen digits. -/
def Webhook.parseTimestamp (value : String) : Option Nat :=
  if 1 ≤ value.toList.length ∧ value.toList.length ≤ 15 ∧ value.toList.all Char.isDigit then
    some (Nat.ofDigitChars 10 value.toList 0)
  else none

/-- `split(/\s+/)`, from a current part on; `skipping` within a run of white space. -/
def splitSpaces : Bool → List Char → List Char → List (List Char)
  | _, current, [] => [current]
  | skipping, current, c :: rest =>
    if RateLimit.isSpace c then
      if skipping then splitSpaces true current rest else current :: splitSpaces true [] rest
    else splitSpaces false (current ++ [c]) rest

/-- One entry of the header: `crypto.subtle.verify` of a `v1` entry that decodes. -/
def verifyEntry (mac : List UInt8) (entry : List Char) : Bool :=
  if "v1,".toList.isPrefixOf entry then Base64.decode (entry.drop 3) == some mac else false

/-- `DEFAULT_WEBHOOK_TOLERANCE_SEC`. -/
def defaultWebhookToleranceSec : ℚ := 300

/-- The timestamp is within the tolerance of the clock. -/
def timely (now : Int) (toleranceSec : ℚ) (timestampSec : Nat) : Bool :=
  decide (|((now / 1000 - timestampSec : Int) : ℚ)| ≤ toleranceSec)

def verifyWebhookSignature (hmac : Hmac) (secret id timestamp body signatureHeader : String)
    (now : Int) (toleranceSec : ℚ) : Except JsError Bool :=
  match Webhook.parseTimestamp timestamp with
  | none => .ok false
  | some timestampSec =>
    if timely now toleranceSec timestampSec = false then .ok false
    else do
      let bytes ← decodeWebhookSecret secret
      let key ← importHmacKey bytes
      let mac := hmac key (utf8 (signedContent id timestamp body))
      return (splitSpaces false [] signatureHeader.toList).any (verifyEntry mac)

/-! ## The sink -/

structure WebhookSinkOptions where
  url : String
  secret : String
  headers : List (String × String) := []
  /-- `cloudevents`, or `raw`. -/
  cloudEvents : Bool := true
  timeoutMs : Int := 10000
  successStatuses : Nat → Bool := fun status => decide (200 ≤ status) && decide (status < 300)

/-- What `webhookSink` closes over. -/
structure WebhookSink where
  options : WebhookSinkOptions
  secretBytes : List UInt8

/-- `webhookSink`; `validUrl` is the URL parser of the platform. -/
def webhookSink (validUrl : String → Bool) (options : WebhookSinkOptions) :
    Except JsError WebhookSink :=
  if validUrl options.url = false then
    .error (configError ("webhookSink: invalid url '" ++ options.url ++ "'"))
  else if options.secret = "" then .error (configError "webhookSink: secret is required")
  else do
    let secretBytes ← decodeWebhookSecret options.secret
    if 0 < options.timeoutMs then return { options, secretBytes }
    else
      throw (configError ("webhookSink: timeoutMs must be a positive number, got " ++
        toString options.timeoutMs))

structure WebhookRequest where
  url : String
  headers : OrderedMap String String
  body : String

def lowercase (name : String) : String := String.ofList (name.toList.map lowerCase)

/-- `lowercaseKeys`. -/
def lowercaseKeys (headers : List (String × String)) : OrderedMap String String :=
  headers.foldl (fun out h => out.set (lowercase h.1) h.2) OrderedMap.empty

/-- The content type of `serializeEvent`. -/
def WebhookSinkOptions.contentType (options : WebhookSinkOptions) : String :=
  if options.cloudEvents then "application/cloudevents+json" else "application/json"

/-- The headers of a delivery: the `webhook-*` ones come last and win. -/
def webhookHeaders (options : WebhookSinkOptions) (id timestamp signature : String) :
    OrderedMap String String :=
  let base : OrderedMap String String := OrderedMap.empty.set "content-type" options.contentType
  let extra := (lowercaseKeys options.headers).entries.foldl (fun out h => out.set h.1 h.2) base
  ((extra.set "webhook-id" id).set "webhook-timestamp" timestamp).set "webhook-signature" signature

namespace WebhookSink

/-- The request for an event: `body` is its serialized form, `now` the clock of the sink. -/
def request (hmac : Hmac) (sink : WebhookSink) (id body : String) (now : Int) :
    Except JsError WebhookRequest := do
  let timestamp := toString (now / 1000)
  let key ← importHmacKey sink.secretBytes
  let signature := signWithKey hmac key (signedContent id timestamp body)
  return { url := sink.options.url
           headers := webhookHeaders sink.options id timestamp signature
           body }

end WebhookSink

/-! ## What a signature header holds -/

theorem splitSpaces_word {word : List Char}
    (h : ∀ c ∈ word, RateLimit.isSpace c = false) (skipping : Bool)
    (current rest : List Char) (hne : word ≠ []) :
    splitSpaces skipping current (word ++ rest) = splitSpaces false (current ++ word) rest := by
  induction word generalizing skipping current with
  | nil => exact absurd rfl hne
  | cons c word ih =>
    have hc := h c List.mem_cons_self
    rw [List.cons_append, splitSpaces]
    simp only [hc, Bool.false_eq_true, if_false]
    cases word with
    | nil => simp
    | cons d word =>
      rw [ih (fun x hx => h x (List.mem_cons_of_mem _ hx)) false (current ++ [c]) (by simp)]
      simp

/-- Words with single spaces between them. -/
def joinWords : List (List Char) → List Char
  | [] => []
  | [w] => w
  | w :: w' :: ws => w ++ ' ' :: joinWords (w' :: ws)

theorem splitSpaces_join {words : List (List Char)} (hne : words ≠ [])
    (h : ∀ w ∈ words, w ≠ [] ∧ ∀ c ∈ w, RateLimit.isSpace c = false) (skipping : Bool) :
    splitSpaces skipping [] (joinWords words) = words := by
  induction words generalizing skipping with
  | nil => exact absurd rfl hne
  | cons w words ih =>
    obtain ⟨hw, hplain⟩ := h w List.mem_cons_self
    cases words with
    | nil =>
      have hword := splitSpaces_word hplain skipping [] [] hw
      rw [List.append_nil, List.nil_append] at hword
      rw [joinWords, hword, splitSpaces]
    | cons w' words =>
      have hspace : RateLimit.isSpace ' ' = true := by decide
      rw [joinWords, splitSpaces_word hplain skipping [] _ hw, List.nil_append, splitSpaces]
      simp only [hspace, if_true, Bool.false_eq_true, if_false]
      rw [ih (by simp) (fun v hv => h v (List.mem_cons_of_mem _ hv)) true]

theorem letter_unspaced (n : Fin 64) : RateLimit.isSpace (Base64.letter n) = false := by
  revert n
  decide

theorem entry_plain (mac : List UInt8) :
    signatureEntry mac ≠ [] ∧ ∀ c ∈ signatureEntry mac, RateLimit.isSpace c = false := by
  refine ⟨List.cons_ne_nil _ _, ?_⟩
  intro c hc
  rcases List.mem_append.1 hc with hin | hin
  · have hversion : ("v1,".toList.all fun c => !RateLimit.isSpace c) = true := by decide
    simpa using List.all_eq_true.1 hversion c hin
  · exact Base64.encode_plain mac (by decide) letter_unspaced c hin

theorem verifyEntry_signature (mac mac' : List UInt8) :
    verifyEntry mac (signatureEntry mac') = decide (mac' = mac) := by
  have hdrop : (signatureEntry mac').drop 3 = Base64.encode mac' := rfl
  have hleading : "v1,".toList.isPrefixOf (signatureEntry mac') = true := by
    rw [List.isPrefixOf_iff_prefix]
    exact List.prefix_append _ _
  rw [verifyEntry, if_pos hleading, hdrop, Base64.decode_encode]
  by_cases h : mac' = mac <;> simp [h]

/-- A header of signatures holds one of them. -/
theorem any_signatures (mac : List UInt8) (macs : List (List UInt8)) :
    (splitSpaces false [] (joinWords (macs.map signatureEntry))).any (verifyEntry mac) =
      decide (mac ∈ macs) := by
  rcases macs with - | ⟨m, macs⟩
  · rfl
  · rw [splitSpaces_join (by simp) ?_]
    · rw [List.any_map, Bool.eq_iff_iff, List.any_eq_true, decide_eq_true_eq]
      constructor
      · rintro ⟨mac', hmem, hverify⟩
        rw [Function.comp_apply, verifyEntry_signature, decide_eq_true_eq] at hverify
        rwa [← hverify]
      · intro hmem
        refine ⟨mac, hmem, ?_⟩
        rw [Function.comp_apply, verifyEntry_signature]
        exact decide_eq_true rfl
    · intro w hw
      obtain ⟨mac', -, rfl⟩ := List.mem_map.1 hw
      exact entry_plain mac'

/-! ## Timestamps -/

theorem Webhook.parseTimestamp_repr (n : Nat) :
    Webhook.parseTimestamp (toString n) = if n < 10 ^ 15 then some n else none := by
  have htext : (toString n).toList = Nat.toDigits 10 n := Nat.toList_repr
  have hdigits : (Nat.toDigits 10 n).all Char.isDigit = true := by
    rw [List.all_eq_true]
    intro c hc
    exact Nat.isDigit_of_mem_toDigits (by decide) (by decide) hc
  have hpos : 1 ≤ (Nat.toDigits 10 n).length := Nat.length_toDigits_pos
  have hlen := Nat.length_toDigits_le_iff (b := 10) (n := n) (k := 15) (by decide) (by decide)
  rw [Webhook.parseTimestamp, htext]
  by_cases hn : n < 10 ^ 15
  · rw [if_pos hn, if_pos ⟨hpos, hlen.2 hn, hdigits⟩, Nat.ofDigitChars_ten_toDigits]
  · rw [if_neg hn, if_neg]
    rintro ⟨-, hle, -⟩
    exact hn (hlen.1 hle)

/-- A negative time is no timestamp. -/
theorem Webhook.parseTimestamp_negSucc (n : Nat) :
    Webhook.parseTimestamp (toString (Int.negSucc n)) = none := by
  have htext : (toString (Int.negSucc n)).toList = '-' :: (toString (n + 1)).toList := by
    have heq : toString (Int.negSucc n) = "-" ++ toString (n + 1) := rfl
    rw [heq, String.toList_append]
    rfl
  rw [Webhook.parseTimestamp, if_neg]
  rintro ⟨-, -, hall⟩
  rw [htext, List.all_cons] at hall
  simp at hall

/-! ## Signed content -/

theorem utf8_injective : Function.Injective utf8 := by
  intro a b h
  exact String.toByteArray_inj.1 (ByteArray.ext (Array.toList_inj.1 h))

/-- The content tells id, timestamp and body, where the first two have no dots. -/
theorem signedContent_inj {id id' timestamp timestamp' body body' : String}
    (hid : '.' ∉ id.toList) (hid' : '.' ∉ id'.toList) (ht : '.' ∉ timestamp.toList)
    (ht' : '.' ∉ timestamp'.toList)
    (h : signedContent id timestamp body = signedContent id' timestamp' body') :
    id = id' ∧ timestamp = timestamp' ∧ body = body' := by
  have hchars := congrArg String.toList h
  have hlist : ∀ a t b : String, (signedContent a t b).toList =
      a.toList ++ '.' :: (t.toList ++ '.' :: b.toList) := by
    intro a t b
    simp [signedContent]
  rw [hlist, hlist] at hchars
  obtain ⟨hids, hrest⟩ := eq_of_cut hid hid' hchars
  obtain ⟨htimes, hbodies⟩ := eq_of_cut ht ht' hrest
  exact ⟨String.toList_injective hids, String.toList_injective htimes,
    String.toList_injective hbodies⟩

/-- A timestamp has no dots. -/
theorem dotless_of_parse {timestamp : String} {n : Nat} (h : Webhook.parseTimestamp timestamp = some n) :
    '.' ∉ timestamp.toList := by
  rw [Webhook.parseTimestamp] at h
  split at h
  · next hall =>
    intro hdot
    have hdigit := List.all_eq_true.1 hall.2.2 _ hdot
    exact absurd hdigit (by decide)
  · cases h

/-- The id of an event has no dots. -/
theorem eventId_dotless (crypto : Crypto) (parts : EventIdParts) :
    '.' ∉ (eventId crypto parts).toList := by
  have hhex : ∀ n : Fin 16, hexChar n ≠ '.' := by decide
  rw [eventId, Crypto.sha256Hex, toHex, String.toList_ofList]
  intro hdot
  obtain ⟨b, -, hb⟩ := List.mem_flatMap.1 hdot
  simp only [hexByte, List.mem_cons, List.not_mem_nil, or_false] at hb
  rcases hb with hb | hb
  · exact hhex _ hb.symm
  · exact hhex _ hb.symm

/-! ## What is accepted -/

theorem verify_eq {hmac : Hmac} {secret id timestamp body header : String} {now : Int} {tol : ℚ}
    {n : Nat} {bytes key : List UInt8} (hparse : Webhook.parseTimestamp timestamp = some n)
    (hbytes : decodeWebhookSecret secret = .ok bytes) (hkey : importHmacKey bytes = .ok key) :
    verifyWebhookSignature hmac secret id timestamp body header now tol =
      .ok (timely now tol n && (splitSpaces false [] header.toList).any
        (verifyEntry (hmac key (utf8 (signedContent id timestamp body))))) := by
  simp only [verifyWebhookSignature, hparse, hbytes]
  cases timely now tol n with
  | false => rfl
  | true => simp [bind, Except.bind, hkey, pure, Except.pure]

/-- What is accepted has a timestamp and was checked with a key. -/
theorem verify_true {hmac : Hmac} {secret id timestamp body header : String} {now : Int} {tol : ℚ}
    (h : verifyWebhookSignature hmac secret id timestamp body header now tol = .ok true) :
    ∃ n bytes key, Webhook.parseTimestamp timestamp = some n ∧ decodeWebhookSecret secret = .ok bytes ∧
      importHmacKey bytes = .ok key := by
  unfold verifyWebhookSignature at h
  cases hparse : Webhook.parseTimestamp timestamp with
  | none =>
    rw [hparse] at h
    cases h
  | some n =>
    rw [hparse] at h
    dsimp only at h
    split at h
    · cases h
    · cases hbytes : decodeWebhookSecret secret with
      | error e =>
        rw [hbytes] at h
        cases h
      | ok bytes =>
        rw [hbytes] at h
        cases hkey : importHmacKey bytes with
        | error e =>
          simp only [bind, Except.bind, hkey] at h
          cases h
        | ok key => exact ⟨n, bytes, key, rfl, rfl, hkey⟩

/-- A message that was signed has a key. -/
theorem signWebhook_ok {hmac : Hmac} {secret id timestamp body signature : String}
    (h : signWebhook hmac secret id timestamp body = .ok signature) :
    ∃ bytes key, decodeWebhookSecret secret = .ok bytes ∧ importHmacKey bytes = .ok key ∧
      signature = signWithKey hmac key (signedContent id timestamp body) := by
  unfold signWebhook at h
  cases hbytes : decodeWebhookSecret secret with
  | error e =>
    rw [hbytes] at h
    cases h
  | ok bytes =>
    rw [hbytes] at h
    cases hkey : importHmacKey bytes with
    | error e =>
      simp only [bind, Except.bind, hkey] at h
      cases h
    | ok key =>
      simp only [bind, Except.bind, hkey, pure, Except.pure, Except.ok.injEq] at h
      exact ⟨bytes, key, rfl, hkey, h.symm⟩

theorem webhookSink_ok {validUrl : String → Bool} {options : WebhookSinkOptions} {sink : WebhookSink}
    (h : webhookSink validUrl options = .ok sink) :
    sink.options = options ∧ decodeWebhookSecret options.secret = .ok sink.secretBytes := by
  unfold webhookSink at h
  split at h
  · cases h
  · split at h
    · cases h
    · cases hbytes : decodeWebhookSecret options.secret with
      | error e =>
        rw [hbytes] at h
        cases h
      | ok bytes =>
        rw [hbytes] at h
        simp only [bind, Except.bind] at h
        split at h
        · obtain rfl := Except.ok.inj h
          exact ⟨rfl, rfl⟩
        · cases h

/-- What a sink sends is accepted by a receiver with its secret exactly while the receiver's clock is
within the tolerance of the sink's, whatever headers the sink adds. -/
theorem webhook_verifies (hmac : Hmac) {validUrl : String → Bool} {options : WebhookSinkOptions}
    {sink : WebhookSink} (hsink : webhookSink validUrl options = .ok sink) {id body : String}
    {sentAt : Int} {req : WebhookRequest} (hreq : sink.request hmac id body sentAt = .ok req)
    (now : Int) (toleranceSec : ℚ) :
    req.body = body ∧ ∃ timestamp signature,
      req.headers.get "webhook-id" = some id ∧
      req.headers.get "webhook-timestamp" = some timestamp ∧
      req.headers.get "webhook-signature" = some signature ∧
      verifyWebhookSignature hmac options.secret id timestamp body signature now toleranceSec =
        .ok (decide (0 ≤ sentAt / 1000 ∧ sentAt / 1000 < 10 ^ 15 ∧
          |((now / 1000 - sentAt / 1000 : Int) : ℚ)| ≤ toleranceSec)) := by
  obtain ⟨hoptions, hbytes⟩ := webhookSink_ok hsink
  unfold WebhookSink.request at hreq
  cases hkey : importHmacKey sink.secretBytes with
  | error e =>
    simp only [bind, Except.bind, hkey] at hreq
    cases hreq
  | ok key =>
    simp only [bind, Except.bind, hkey, pure, Except.pure, Except.ok.injEq] at hreq
    subst hreq
    refine ⟨rfl, toString (sentAt / 1000),
      signWithKey hmac key (signedContent id (toString (sentAt / 1000)) body), ?_, ?_, ?_, ?_⟩
    · simp only [webhookHeaders]
      rw [OrderedMap.get_set_ne _ (by decide), OrderedMap.get_set_ne _ (by decide),
        OrderedMap.get_set_self]
    · simp only [webhookHeaders]
      rw [OrderedMap.get_set_ne _ (by decide), OrderedMap.get_set_self]
    · simp only [webhookHeaders]
      rw [OrderedMap.get_set_self]
    · cases hsec : sentAt / 1000 with
      | ofNat n =>
        have hrepr := Webhook.parseTimestamp_repr n
        have htext : toString (Int.ofNat n) = toString n := rfl
        have hheader : (splitSpaces false []
            (signWithKey hmac key (signedContent id (toString n) body)).toList).any
            (verifyEntry (hmac key (utf8 (signedContent id (toString n) body)))) = true := by
          have hany := any_signatures (hmac key (utf8 (signedContent id (toString n) body)))
            [hmac key (utf8 (signedContent id (toString n) body))]
          rw [signWithKey, String.toList_ofList]
          exact hany.trans (decide_eq_true List.mem_cons_self)
        rw [htext]
        have hrange : (0 ≤ Int.ofNat n ∧ Int.ofNat n < 10 ^ 15 ∧
            |((now / 1000 - Int.ofNat n : Int) : ℚ)| ≤ toleranceSec) ↔
            n < 10 ^ 15 ∧ timely now toleranceSec n = true := by
          have hcast : Int.ofNat n < 10 ^ 15 ↔ n < 10 ^ 15 := by
            rw [Int.ofNat_eq_natCast]
            omega
          rw [hcast, timely, decide_eq_true_eq]
          exact and_iff_right (Int.natCast_nonneg n)
        rw [decide_eq_decide.2 hrange]
        by_cases hn : n < 10 ^ 15
        · rw [if_pos hn] at hrepr
          rw [verify_eq hrepr hbytes hkey, hheader, Bool.and_true, Except.ok.injEq,
            Bool.eq_iff_iff, decide_eq_true_eq]
          exact (and_iff_right hn).symm
        · rw [if_neg hn] at hrepr
          simp only [verifyWebhookSignature, hrepr]
          rw [decide_eq_false]
          exact fun hboth => hn hboth.1
      | negSucc n =>
        have hneg : ¬0 ≤ Int.negSucc n := by simp
        simp only [verifyWebhookSignature, Webhook.parseTimestamp_negSucc, hneg, false_and, decide_false]

def helloSink : WebhookSinkOptions where
  url := "https://example.com/hooks"
  secret := "hello"
  headers := [("Webhook-Id", "mine")]

/-- A header of the options does not stand in for the id, and a second later the delivery is accepted. -/
theorem webhook_verifies_sample : ∃ req : WebhookRequest,
    (WebhookSink.mk helloSink (utf8 "hello")).request Sha256.hmac "e1" "[]" 1700000000123 = .ok req ∧
      req.body = "[]" ∧ ∃ timestamp signature,
        req.headers.get "webhook-id" = some "e1" ∧
        req.headers.get "webhook-timestamp" = some timestamp ∧
        req.headers.get "webhook-signature" = some signature ∧
        verifyWebhookSignature Sha256.hmac "hello" "e1" timestamp "[]" signature 1700000001000 300 =
          .ok true := by
  have hsink : webhookSink (fun _ => true) helloSink = .ok ⟨helloSink, utf8 "hello"⟩ := rfl
  have hkey : importHmacKey (utf8 "hello") = .ok (utf8 "hello") := rfl
  obtain ⟨req, hreq⟩ : ∃ req,
      (WebhookSink.mk helloSink (utf8 "hello")).request Sha256.hmac "e1" "[]" 1700000000123 = .ok req := by
    rw [WebhookSink.request, hkey]
    exact ⟨_, rfl⟩
  obtain ⟨hbody, timestamp, signature, hid, htimestamp, hsignature, hverify⟩ :=
    webhook_verifies Sha256.hmac hsink hreq 1700000001000 300
  rw [decide_eq_true (by norm_num)] at hverify
  exact ⟨req, hreq, hbody, timestamp, signature, hid, htimestamp, hsignature, hverify⟩

/-- The digest of `content` under the secret is that of no other content of the list. -/
def Hmac.Apart (hmac : Hmac) (secret : String) (contents : List String) (content : String) : Prop :=
  ∀ bytes key, decodeWebhookSecret secret = .ok bytes → importHmacKey bytes = .ok key →
    ∀ c ∈ contents, hmac key (utf8 c) = hmac key (utf8 content) → c = content

/-- A header of any signatures made with the secret accepts a delivery exactly when it was one of
those signed and its time is near, as long as the delivery has the digest of no other message and a dot
stands in no id and in no time that was signed. -/
theorem webhook_authenticates {hmac : Hmac} {secret : String}
    {messages : List (String × String × String)}
    (hdots : ∀ m ∈ messages, '.' ∉ m.1.toList ∧ '.' ∉ m.2.1.toList) {signatures : List String}
    (hsigned : List.Forall₂
      (fun m s => signWebhook hmac secret m.1 m.2.1 m.2.2 = .ok s) messages signatures)
    {id : String} (hid : '.' ∉ id.toList) {timestamp body : String}
    (hapart : hmac.Apart secret (messages.map fun m => signedContent m.1 m.2.1 m.2.2)
      (signedContent id timestamp body)) (now : Int) (toleranceSec : ℚ) :
    verifyWebhookSignature hmac secret id timestamp body
        (String.ofList (joinWords (signatures.map String.toList))) now toleranceSec = .ok true ↔
      (id, timestamp, body) ∈ messages ∧
        ∃ n, Webhook.parseTimestamp timestamp = some n ∧ timely now toleranceSec n = true := by
  -- every signature is over the same key
  have hmacs : ∀ key bytes, decodeWebhookSecret secret = .ok bytes → importHmacKey bytes = .ok key →
      signatures.map String.toList = (messages.map fun m =>
        hmac key (utf8 (signedContent m.1 m.2.1 m.2.2))).map signatureEntry := by
    intro key bytes hbytes hkey
    clear hapart hdots
    induction hsigned with
    | nil => rfl
    | cons hm _ ih =>
      obtain ⟨bytes', key', hbytes', hkey', rfl⟩ := signWebhook_ok hm
      rw [hbytes, Except.ok.injEq] at hbytes'
      subst hbytes'
      rw [hkey, Except.ok.injEq] at hkey'
      subst hkey'
      simp only [List.map_cons, ih, signWithKey, String.toList_ofList]
  constructor
  · intro hverify
    obtain ⟨n, bytes, key, hparse, hbytes, hkey⟩ := verify_true hverify
    rw [verify_eq hparse hbytes hkey, hmacs key bytes hbytes hkey, String.toList_ofList,
      any_signatures, Except.ok.injEq, Bool.and_eq_true, decide_eq_true_eq] at hverify
    obtain ⟨htime, hmem⟩ := hverify
    obtain ⟨m, hm, hmac⟩ := List.mem_map.1 hmem
    -- the digest determines the message
    have hcontent := hapart bytes key hbytes hkey _ (List.mem_map_of_mem hm) hmac
    obtain ⟨hids, htimes, hbodies⟩ := signedContent_inj (hdots m hm).1 hid (hdots m hm).2
      (dotless_of_parse hparse) hcontent
    exact ⟨hids ▸ htimes ▸ hbodies ▸ hm, n, hparse, htime⟩
  · rintro ⟨hmem, n, hparse, htime⟩
    obtain ⟨s, -, hs⟩ : ∃ s ∈ signatures, signWebhook hmac secret id timestamp body = .ok s := by
      obtain ⟨i, hi, hget⟩ := List.getElem_of_mem hmem
      have hlen := hsigned.length_eq
      have hi' : i < signatures.length := hlen ▸ hi
      have hat := (List.forall₂_iff_get.1 hsigned).2 i hi hi'
      rw [List.get_eq_getElem, hget] at hat
      exact ⟨signatures.get ⟨i, hi'⟩, List.get_mem _ _, hat⟩
    obtain ⟨bytes, key, hbytes, hkey, -⟩ := signWebhook_ok hs
    rw [verify_eq hparse hbytes hkey, hmacs key bytes hbytes hkey, String.toList_ofList,
      any_signatures, htime]
    simp only [Bool.true_and]
    rw [decide_eq_true]
    exact List.mem_map.2 ⟨_, hmem, rfl⟩

/-- A header of two signatures; the second is that of the delivery. -/
theorem webhook_authenticates_sample :
    ∃ s s', signWebhook Sha256.hmac "hello" "e1" "1699999990" "[]" = .ok s ∧
      signWebhook Sha256.hmac "hello" "e1" "1700000000" "{}" = .ok s' ∧
      verifyWebhookSignature Sha256.hmac "hello" "e1" "1700000000" "{}"
        (String.ofList (joinWords ([s, s'].map String.toList))) 1700000001000 300 = .ok true := by
  have hkey : importHmacKey (utf8 "hello") = .ok (utf8 "hello") := rfl
  have hbytes : decodeWebhookSecret "hello" = .ok (utf8 "hello") := rfl
  have hs : ∀ timestamp body, signWebhook Sha256.hmac "hello" "e1" timestamp body =
      .ok (signWithKey Sha256.hmac (utf8 "hello") (signedContent "e1" timestamp body)) := by
    intro timestamp body
    rw [signWebhook, hbytes]
    simp only [bind, Except.bind, hkey]
    rfl
  refine ⟨_, _, hs "1699999990" "[]", hs "1700000000" "{}", ?_⟩
  have hdots : ∀ m ∈ [("e1", "1699999990", "[]"), ("e1", "1700000000", "{}")],
      '.' ∉ m.1.toList ∧ '.' ∉ m.2.1.toList := by decide
  have hbefore : Sha256.innerDigest (utf8 "hello") (utf8 (signedContent "e1" "1699999990" "[]")) =
      [0x73, 0x74, 0xef, 0x08, 0xc2, 0x02, 0x7a, 0xf5, 0x50, 0x64, 0xd7, 0x3e, 0xc6, 0xc3, 0x92, 0x50,
        0x39, 0x19, 0xbf, 0x20, 0x13, 0x78, 0x4a, 0xe1, 0x58, 0x2b, 0xaf, 0x8c, 0x18, 0xc9, 0x3c,
        0x16] := by decide +kernel
  have hafter : Sha256.innerDigest (utf8 "hello") (utf8 (signedContent "e1" "1700000000" "{}")) =
      [0x86, 0xb0, 0x5d, 0xc4, 0x09, 0xab, 0xab, 0x55, 0xa4, 0x7e, 0x1c, 0x1d, 0xb8, 0xe9, 0x5b, 0xeb,
        0xb6, 0x77, 0x12, 0x07, 0x98, 0x84, 0x65, 0x23, 0x53, 0xde, 0x5f, 0x61, 0x62, 0x96, 0x29,
        0xfa] := by decide +kernel
  have hother : Sha256.hmac (utf8 "hello") (utf8 (signedContent "e1" "1699999990" "[]")) ≠
      Sha256.hmac (utf8 "hello") (utf8 (signedContent "e1" "1700000000" "{}")) := by
    rw [Sha256.hmac_of_inner hbefore, Sha256.hmac_of_inner hafter]
    decide +kernel
  have hapart : Hmac.Apart Sha256.hmac "hello"
      ([("e1", "1699999990", "[]"), ("e1", "1700000000", "{}")].map
        fun m => signedContent m.1 m.2.1 m.2.2) (signedContent "e1" "1700000000" "{}") := by
    intro bytes key hbytes' hkey' c hc hmac
    obtain rfl := Except.ok.inj (hbytes.symm.trans hbytes')
    obtain rfl := Except.ok.inj (hkey.symm.trans hkey')
    simp only [List.map_cons, List.map_nil, List.mem_cons, List.not_mem_nil, or_false] at hc
    rcases hc with rfl | rfl
    · exact absurd hmac hother
    · rfl
  refine (webhook_authenticates hdots (.cons (hs _ _) (.cons (hs _ _) .nil)) (by decide) hapart _ _).2 ?_
  exact ⟨by simp, 1700000000, by decide, by decide⟩

end Watukuy
