import Noeta.Ext.Resolve

/-!
# Redirects

A chain of redirects drops the credentials of a request when a hop leaves its origin, and the headers
about a body when a hop drops the body. Origins are compared as they are printed, and a host that ends in
a colon and a number prints as another host with that port.
-/

namespace Noeta.Ext

open Noeta.Lib.Rfc3986 (Text upTo beyond Begins upTo_append beyond_append)

/-! ## Requests -/

structure NetRequest where
  method : Text
  url : Text
  headers : List (Text × Text)
  body : List UInt8
  timeoutMs : Option UInt64
  redirectLimit : Option UInt32
deriving DecidableEq

structure NetResponse where
  status : UInt16
  headers : List (Text × Text)
  body : List UInt8
  url : Text
deriving DecidableEq

def eqIgnoreAsciiCase (a b : Text) : Bool := toAsciiLowercase a = toAsciiLowercase b

def NetResponse.headerValue (response : NetResponse) (name : Text) : Option Text :=
  (response.headers.find? fun h => eqIgnoreAsciiCase h.1 name).map (·.2)

def defaultRedirectLimit : Nat := 10

def isRedirect (status : UInt16) : Bool :=
  status = 301 || status = 302 || status = 303 || status = 307 || status = 308

def bodyHeaders : List Text :=
  ["content-length", "content-type", "content-encoding", "content-language", "content-location",
    "transfer-encoding", "content-digest", "digest"].map String.toList

def crossOriginHeaders : List Text :=
  ["authorization", "cookie", "signature", "signature-input"].map String.toList

def headerIn (name : Text) (set : List Text) : Bool := set.any fun known => eqIgnoreAsciiCase name known

def NetRequest.limit (request : NetRequest) : Nat :=
  match request.redirectLimit with
  | some limit => limit.toNat
  | none => defaultRedirectLimit

/-- Whether the next request is a `GET` without a body. -/
def becomesGet (method : Text) (status : UInt16) : Bool :=
  if status = 303 ∧ eqIgnoreAsciiCase method "HEAD".toList = false then true
  else (status = 301 || status = 302) && eqIgnoreAsciiCase method "POST".toList

def redirectTarget (request : NetRequest) (response : NetResponse) (hops : Nat) :
    Option NetRequest :=
  if isRedirect response.status = false then none
  else if request.limit ≤ hops then none
  else
    match response.headerValue "location".toList with
    | none => none
    | some location =>
      let location := trim location
      if location = [] then none
      else
        let base := if response.url = [] then request.url else response.url
        let url := resolveReference base location
        let rewritten := becomesGet request.method response.status
        let method := if rewritten then "GET".toList else request.method
        let body := if rewritten then [] else request.body
        let headers :=
          if body = [] ∧ request.body ≠ [] then
            request.headers.filter fun h => !headerIn h.1 bodyHeaders
          else request.headers
        let headers :=
          if sameOrigin base url then headers
          else headers.filter fun h => !headerIn h.1 crossOriginHeaders
        some
          { method, url, headers, body
            timeoutMs := request.timeoutMs
            redirectLimit := request.redirectLimit }

theorem limit_redirectTarget {request next : NetRequest} {response : NetResponse} {hops : Nat}
    (h : redirectTarget request response hops = some next) :
    next.limit = request.limit ∧ hops < request.limit := by
  rw [redirectTarget] at h
  split at h
  · cases h
  · split at h
    · cases h
    · rename_i hlimit
      split at h
      · cases h
      · dsimp only at h
        split at h
        · cases h
        · cases h
          exact ⟨rfl, by omega⟩

section Chain

variable {σ ε : Type} (fetch : σ → NetRequest → Except ε NetResponse × σ)

/-- The requests that are issued, each with the response it got, and the outcome. -/
def followFrom (current : NetRequest) (hops : Nat) (s : σ) :
    List (NetRequest × Option NetResponse) × Except ε NetResponse :=
  if current.limit ≤ hops then
    let result := (fetch s current).1
    ([(current, result.toOption)], result)
  else
    match fetch s current with
    | (.error e, _) => ([(current, none)], .error e)
    | (.ok response, s) =>
      match h : redirectTarget current response hops with
      | some next =>
        let rest := followFrom next (hops + 1) s
        ((current, some response) :: rest.1, rest.2)
      | none => ([(current, some response)], .ok response)
termination_by current.limit - hops
decreasing_by
  have hlimit := limit_redirectTarget h
  omega

def followRedirects (request : NetRequest) (s : σ) :
    List (NetRequest × Option NetResponse) × Except ε NetResponse :=
  followFrom fetch request 0 s

end Chain

/-! ## Origins -/

/-- The lowercase scheme of a URL. -/
def schemeKey (url : Text) : Text := toAsciiLowercase ((schemeOf url).getD [])

def hostKey (url : Text) : Text := toAsciiLowercase (hostOf url)

def effectivePort (url : Text) : Option UInt16 := (portOf url).or (defaultPort (schemeKey url))

/-- Scheme, host and effective port are the same. -/
structure SameServer (a b : Text) : Prop where
  scheme : schemeKey a = schemeKey b
  host : hostKey a = hostKey b
  port : effectivePort a = effectivePort b

/-- The port that is printed in an origin. -/
def shownPort (url : Text) : Option UInt16 :=
  (portOf url).filter fun p => some p ≠ defaultPort (schemeKey url)

/-- The host of `a`, whose port is not printed, is the host of `b` with a colon and the port of `b`. -/
structure Swallows (a b : Text) : Prop where
  scheme : schemeKey a = schemeKey b
  hidden : shownPort a = none
  host : ∃ p, shownPort b = some p ∧ hostKey a = hostKey b ++ ':' :: showPort p

def portSuffix : Option UInt16 → Text
  | some p => ':' :: showPort p
  | none => []

theorem originOf_eq (url : Text) :
    originOf url = schemeKey url ++ "://".toList ++ (hostKey url ++ portSuffix (shownPort url)) := by
  rw [originOf]
  change (match shownPort url with
    | some port => schemeKey url ++ "://".toList ++ hostKey url ++ [':'] ++ showPort port
    | none => schemeKey url ++ "://".toList ++ hostKey url) = _
  cases shownPort url <;> simp [portSuffix]

theorem toLower_eq_self_or (c : Char) : c.toLower = c ∨ c.toLower.isLower = true := by
  unfold Char.toLower
  split
  · rename_i hrange
    right
    have hlow : 65 ≤ c.val.toNat := UInt32.le_iff_toNat_le.mp hrange.1
    have hhigh : c.val.toNat ≤ 90 := UInt32.le_iff_toNat_le.mp hrange.2
    have hshift : (c.val + ('a'.val - 'A'.val)).toNat = c.val.toNat + 32 := by
      rw [UInt32.toNat_add]
      change (c.val.toNat + 32) % 2 ^ 32 = c.val.toNat + 32
      omega
    unfold Char.isLower
    rw [Bool.and_eq_true, decide_eq_true_iff, decide_eq_true_iff,
      ge_iff_le, UInt32.le_iff_toNat_le, UInt32.le_iff_toNat_le]
    change 97 ≤ (c.val + ('a'.val - 'A'.val)).toNat ∧ (c.val + ('a'.val - 'A'.val)).toNat ≤ 122
    omega
  · exact .inl rfl

theorem mem_of_mem_lowercase {c : Char} (hc : c.isLower = false) {t : Text}
    (h : c ∈ toAsciiLowercase t) : c ∈ t := by
  rw [toAsciiLowercase, List.mem_map] at h
  obtain ⟨d, hd, heq⟩ := h
  rcases toLower_eq_self_or d with hself | hlower
  · rw [← heq, hself]
    exact hd
  · rw [heq, hc] at hlower
    cases hlower

theorem not_mem_schemeKey (url : Text) : ':' ∉ schemeKey url := by
  intro hmem
  rw [schemeKey] at hmem
  have hc := mem_of_mem_lowercase (by decide) hmem
  cases hs : schemeOf url with
  | none =>
    rw [hs] at hc
    cases hc
  | some s =>
    rw [hs] at hc
    exact (not_mem_of_validScheme (schemeOf_eq_some_iff.mp hs).1).2 _ hc List.mem_cons_self

theorem not_mem_showPort (p : UInt16) : ':' ∉ showPort p := by
  intro hmem
  have hdigit := Nat.isDigit_of_mem_toDigits (by omega) (by omega) hmem
  revert hdigit
  decide

theorem showPort_injective {p q : UInt16} (h : showPort p = showPort q) : p = q := by
  have hdigits := congrArg (Nat.ofDigitChars 10 · 0) h
  simp only [showPort, Nat.ofDigitChars_ten_toDigits] at hdigits
  exact UInt16.toNat_inj.mp hdigits

theorem host_of_suffix {a b : Text} {p q : UInt16}
    (h : a ++ ':' :: showPort p = b ++ ':' :: showPort q) : a = b ∧ p = q := by
  have hreverse := congrArg List.reverse h
  simp only [List.reverse_append, List.reverse_cons, List.append_assoc,
    List.singleton_append] at hreverse
  have hclear : ∀ p : UInt16, ∀ c ∈ (showPort p).reverse, c ∉ [':'] := by
    intro p c hc hmem
    rw [List.mem_singleton.mp hmem, List.mem_reverse] at hc
    exact not_mem_showPort p hc
  have hbegins : ∀ t : Text, Begins [':'] (':' :: t) := by
    intro t c hc
    cases hc
    exact List.mem_cons_self
  have hdigits := congrArg (upTo [':']) hreverse
  have hrest := congrArg (beyond [':']) hreverse
  rw [upTo_append (hclear p) (hbegins _), upTo_append (hclear q) (hbegins _),
    List.reverse_inj] at hdigits
  rw [beyond_append (hclear p) (hbegins _), beyond_append (hclear q) (hbegins _), List.cons.injEq,
    List.reverse_inj] at hrest
  exact ⟨hrest.2, showPort_injective hdigits⟩

theorem effectivePort_eq_iff {a b : Text} (h : schemeKey a = schemeKey b) :
    effectivePort a = effectivePort b ↔ shownPort a = shownPort b := by
  rw [effectivePort, effectivePort, shownPort, shownPort, h]
  cases hd : defaultPort (schemeKey b) <;> cases hpa : portOf a <;> cases hpb : portOf b <;>
    simp [Option.filter] <;> grind

/-- Two URLs print one origin when they name one server, and when a host ends like the port of the other. -/
theorem sameOrigin_iff (a b : Text) :
    sameOrigin a b = true ↔ SameServer a b ∨ Swallows a b ∨ Swallows b a := by
  rw [sameOrigin, decide_eq_true_iff, originOf_eq, originOf_eq, List.append_assoc, List.append_assoc]
  constructor
  · intro h
    have hclear : ∀ url, ∀ c ∈ schemeKey url, c ∉ [':'] := by
      intro url c hc hmem
      rw [List.mem_singleton.mp hmem] at hc
      exact not_mem_schemeKey url hc
    have hbegins : ∀ t : Text, Begins [':'] ("://".toList ++ t) := by
      intro t c hc
      cases hc
      exact List.mem_cons_self
    have hscheme := congrArg (upTo [':']) h
    rw [upTo_append (hclear a) (hbegins _), upTo_append (hclear b) (hbegins _)] at hscheme
    rw [hscheme] at h
    have hrest := List.append_cancel_left (List.append_cancel_left h)
    cases hpa : shownPort a with
    | none =>
      rw [hpa] at hrest
      cases hpb : shownPort b with
      | none =>
        rw [hpb, portSuffix, List.append_nil, List.append_nil] at hrest
        exact Or.inl ⟨hscheme, hrest, (effectivePort_eq_iff hscheme).mpr (hpa.trans hpb.symm)⟩
      | some p =>
        rw [hpb, portSuffix, portSuffix, List.append_nil] at hrest
        exact Or.inr (Or.inl ⟨hscheme, hpa, p, hpb, hrest⟩)
    | some p =>
      rw [hpa] at hrest
      cases hpb : shownPort b with
      | none =>
        rw [hpb, portSuffix, portSuffix, List.append_nil] at hrest
        exact Or.inr (Or.inr ⟨hscheme.symm, hpb, p, hpa, hrest.symm⟩)
      | some q =>
        rw [hpb, portSuffix, portSuffix] at hrest
        obtain ⟨hhost, rfl⟩ := host_of_suffix hrest
        exact Or.inl ⟨hscheme, hhost, (effectivePort_eq_iff hscheme).mpr (hpa.trans hpb.symm)⟩
  · intro h
    obtain ⟨hscheme, hhost, hport⟩ | ⟨hscheme, hhidden, p, hp, hhost⟩ |
      ⟨hscheme, hhidden, p, hp, hhost⟩ := h
    · rw [hscheme, hhost, (effectivePort_eq_iff hscheme).mp hport]
    · rw [hscheme, hhost, hhidden, hp, portSuffix, portSuffix, List.append_nil]
    · rw [hscheme, hhost, hhidden, hp, portSuffix, portSuffix, List.append_nil]

-- a number that is no port prints with its host as the origin of another server
example : sameOrigin "http://a:81/".toList "http://a:81:/".toList = true ∧
    hostOf "http://a:81:/".toList = "a:81".toList := by
  decide +kernel

theorem Swallows.not_sameServer {a b : Text} (h : Swallows a b) :
    ¬ SameServer a b ∧ ¬ SameServer b a := by
  obtain ⟨p, _, hhost⟩ := h.host
  have hne : hostKey a ≠ hostKey b := by
    intro heq
    have hlen := congrArg List.length hhost
    rw [heq, List.length_append, List.length_cons] at hlen
    omega
  exact ⟨fun hs => hne hs.host, fun hs => hne hs.host.symm⟩

theorem SameServer.refl (a : Text) : SameServer a a := ⟨rfl, rfl, rfl⟩

theorem SameServer.trans {a b c : Text} (hab : SameServer a b) (hbc : SameServer b c) :
    SameServer a c :=
  ⟨hab.scheme.trans hbc.scheme, hab.host.trans hbc.host, hab.port.trans hbc.port⟩

theorem SameServer.symm {a b : Text} (h : SameServer a b) : SameServer b a :=
  ⟨h.scheme.symm, h.host.symm, h.port.symm⟩

/-! ## One hop -/

/-- Some header of the request is in the set. -/
def Carries (set : List Text) (request : NetRequest) : Prop :=
  ∃ h ∈ request.headers, headerIn h.1 set = true

theorem credential_not_body {name : Text} (h : headerIn name crossOriginHeaders = true) :
    headerIn name bodyHeaders = false := by
  rw [Bool.eq_false_iff]
  intro hbody
  rw [headerIn, List.any_eq_true] at h hbody
  obtain ⟨x, hx, hnx⟩ := h
  obtain ⟨y, hy, hny⟩ := hbody
  rw [eqIgnoreAsciiCase, decide_eq_true_iff] at hnx hny
  have hxy : toAsciiLowercase x = toAsciiLowercase y := hnx.symm.trans hny
  have hdisjoint : ∀ x ∈ crossOriginHeaders, ∀ y ∈ bodyHeaders,
      toAsciiLowercase x ≠ toAsciiLowercase y := by
    decide +kernel
  exact hdisjoint x hx y hy hxy

/-- What the next request of a chain has from the one before. -/
structure Hop (request : NetRequest) (response : NetResponse) (next : NetRequest) : Prop where
  url : ∃ location, (response.headerValue "location".toList).map trim = some location ∧
    next.url = resolveReference request.url location
  method : next.method =
    if becomesGet request.method response.status then "GET".toList else request.method
  body : next.body = if becomesGet request.method response.status then [] else request.body
  headers : ∀ h, h ∈ next.headers ↔ h ∈ request.headers ∧
    (next.body = [] ∧ request.body ≠ [] → headerIn h.1 bodyHeaders = false) ∧
    (sameOrigin request.url next.url = false → headerIn h.1 crossOriginHeaders = false)

theorem hop_of_redirectTarget {request next : NetRequest} {response : NetResponse} {hops : Nat}
    (hurl : response.url = [] ∨ response.url = request.url)
    (h : redirectTarget request response hops = some next) : Hop request response next := by
  have hbase : (if response.url = [] then request.url else response.url) = request.url := by
    obtain hempty | hsame := hurl
    · rw [if_pos hempty]
    · rw [hsame, ite_self]
  rw [redirectTarget] at h
  split at h
  · cases h
  · split at h
    · cases h
    · split at h
      · cases h
      · rename_i location hlocation
        dsimp only at h
        rw [hbase] at h
        split at h
        · cases h
        · rw [Option.some.injEq] at h
          subst h
          refine ⟨⟨trim location, by rw [hlocation]; rfl, rfl⟩, rfl, rfl, ?_⟩
          intro hd
          dsimp only
          generalize (if becomesGet request.method response.status then [] else request.body) = body
          generalize sameOrigin request.url _ = same
          cases same <;> by_cases hbody : body = [] ∧ request.body ≠ [] <;> simp [hbody]
          exact fun _ => and_comm

namespace Hop

variable {request next : NetRequest} {response : NetResponse} (h : Hop request response next)

include h

theorem headers_subset : ∀ hd ∈ next.headers, hd ∈ request.headers :=
  fun hd hmem => ((h.headers hd).mp hmem).1

theorem carries_credential_iff :
    Carries crossOriginHeaders next ↔
      Carries crossOriginHeaders request ∧ sameOrigin request.url next.url = true := by
  constructor
  · intro ⟨hd, hmem, hin⟩
    obtain ⟨hrequest, _, hsame⟩ := (h.headers hd).mp hmem
    refine ⟨⟨hd, hrequest, hin⟩, ?_⟩
    by_contra hdiffers
    rw [hsame (Bool.eq_false_iff.mpr hdiffers)] at hin
    cases hin
  · intro ⟨⟨hd, hmem, hin⟩, hsame⟩
    refine ⟨hd, (h.headers hd).mpr ⟨hmem, fun _ => credential_not_body hin, fun hdiffers => ?_⟩, hin⟩
    rw [hsame] at hdiffers
    cases hdiffers

theorem carries_body (hcarries : Carries bodyHeaders next) :
    Carries bodyHeaders request ∧ ¬ (next.body = [] ∧ request.body ≠ []) := by
  obtain ⟨hd, hmem, hin⟩ := hcarries
  obtain ⟨hrequest, hdropped, _⟩ := (h.headers hd).mp hmem
  refine ⟨⟨hd, hrequest, hin⟩, fun hbody => ?_⟩
  rw [hdropped hbody] at hin
  cases hin

theorem carries_body_of_empty (hempty : request.body = []) (hcarries : Carries bodyHeaders request) :
    Carries bodyHeaders next := by
  obtain ⟨hd, hmem, hin⟩ := hcarries
  refine ⟨hd, (h.headers hd).mpr ⟨hmem, fun hbody => absurd hempty hbody.2, fun _ => ?_⟩, hin⟩
  rw [Bool.eq_false_iff]
  intro hcross
  rw [credential_not_body hcross] at hin
  cases hin

end Hop

/-! ## A chain -/

/-- What the claim of safety says of one issued request. -/
structure SafeRequest (original issued : NetRequest) : Prop where
  credentials : (∃ h ∈ issued.headers, h ∈ original.headers ∧ headerIn h.1 crossOriginHeaders = true) →
    SameServer original.url issued.url
  body : issued.method ≠ original.method → ¬ Carries bodyHeaders issued

/-- A hop that neither meets a host ending like a port while credentials ride, nor turns a request that
has headers about a body, but no body, into a `GET`. -/
structure HopOk (request : NetRequest) (response : NetResponse) : Prop where
  credentials : Carries crossOriginHeaders request →
    ∀ location, (response.headerValue "location".toList).map trim = some location →
      ¬ Swallows request.url (resolveReference request.url location) ∧
        ¬ Swallows (resolveReference request.url location) request.url
  body : becomesGet request.method response.status = true → request.method ≠ "GET".toList →
    request.body = [] → ¬ Carries bodyHeaders request

/-- What every request of a chain has from the first. -/
structure Descends (original issued : NetRequest) : Prop where
  headers : ∀ h ∈ issued.headers, h ∈ original.headers
  method : issued.method = original.method ∨ issued.method = "GET".toList

theorem Descends.refl (original : NetRequest) : Descends original original :=
  ⟨fun _ h => h, Or.inl rfl⟩

theorem SafeRequest.refl (original : NetRequest) : SafeRequest original original :=
  ⟨fun _ => SameServer.refl _, fun h => absurd rfl h⟩

theorem Descends.hop {original request next : NetRequest} {response : NetResponse}
    (h : Descends original request) (hhop : Hop request response next) : Descends original next := by
  refine ⟨fun hd hmem => h.headers hd (hhop.headers_subset hd hmem), ?_⟩
  rw [hhop.method]
  split
  · exact Or.inr rfl
  · exact h.method

/-- From a safe request a hop leads to a safe request exactly when it is in order. -/
theorem safeRequest_hop_iff {original request next : NetRequest} {response : NetResponse}
    (hdescends : Descends original request) (hsafe : SafeRequest original request)
    (hhop : Hop request response next) :
    SafeRequest original next ↔ HopOk request response := by
  obtain ⟨location, hlocation, hurl⟩ := hhop.url
  have hdescends' := hdescends.hop hhop
  constructor
  · intro hnext
    refine ⟨?_, ?_⟩
    · intro hcarries location' hlocation'
      have hsame : location' = location := Option.some_inj.mp (hlocation'.symm.trans hlocation)
      subst hsame
      obtain ⟨hd, hmem, hin⟩ := hcarries
      have hrequest := hsafe.credentials ⟨hd, hmem, hdescends.headers hd hmem, hin⟩
      have hreaches : sameOrigin request.url next.url = true → SameServer request.url next.url := by
        intro hsame
        obtain ⟨hd', hmem', hin'⟩ := hhop.carries_credential_iff.mpr ⟨⟨hd, hmem, hin⟩, hsame⟩
        exact hrequest.symm.trans
          (hnext.credentials ⟨hd', hmem', hdescends'.headers hd' hmem', hin'⟩)
      rw [← hurl]
      constructor
      · intro hswallows
        exact hswallows.not_sameServer.1
          (hreaches ((sameOrigin_iff _ _).mpr (Or.inr (Or.inl hswallows))))
      · intro hswallows
        exact hswallows.not_sameServer.2
          (hreaches ((sameOrigin_iff _ _).mpr (Or.inr (Or.inr hswallows))))
    · intro hget hmethod hempty hcarries
      have horiginal : request.method = original.method :=
        hdescends.method.resolve_right hmethod
      have hnextMethod := hhop.method
      rw [hget, if_pos rfl] at hnextMethod
      have hchanged : next.method ≠ original.method := by
        rw [hnextMethod, ← horiginal]
        exact Ne.symm hmethod
      exact hnext.body hchanged (hhop.carries_body_of_empty hempty hcarries)
  · intro hok
    refine ⟨?_, ?_⟩
    · intro ⟨hd, hmem, _, hin⟩
      obtain ⟨⟨hd', hmem', hin'⟩, hsame⟩ := hhop.carries_credential_iff.mp ⟨hd, hmem, hin⟩
      have hrequest := hsafe.credentials ⟨hd', hmem', hdescends.headers hd' hmem', hin'⟩
      obtain ⟨hleft, hright⟩ := hok.credentials ⟨hd', hmem', hin'⟩ location hlocation
      rw [← hurl] at hleft hright
      obtain hserver | hswallows | hswallows := (sameOrigin_iff _ _).mp hsame
      · exact hrequest.trans hserver
      · exact absurd hswallows hleft
      · exact absurd hswallows hright
    · intro hchanged hcarries
      obtain ⟨hcarries', hkept⟩ := hhop.carries_body hcarries
      by_cases hsame : request.method = original.method
      · have hmethod := hhop.method
        split at hmethod
        · rename_i hget
          have hne : request.method ≠ "GET".toList := by
            intro heq
            exact hchanged (hmethod.trans (heq.symm.trans hsame))
          have hbody := hhop.body
          rw [hget, if_pos rfl] at hbody
          have hempty : request.body = [] := by
            by_contra hfull
            exact hkept ⟨hbody, hfull⟩
          exact hok.body hget hne hempty hcarries'
        · exact hchanged (hmethod.trans hsame)
      · exact hsafe.body hsame hcarries'

section Safety

variable {σ ε : Type} {fetch : σ → NetRequest → Except ε NetResponse × σ}

/-- A response is stamped with the URL it was asked for, or with none. -/
def Stamped (fetch : σ → NetRequest → Except ε NetResponse × σ) : Prop :=
  ∀ s request response s', fetch s request = (.ok response, s') →
    response.url = [] ∨ response.url = request.url

theorem followFrom_cons (current : NetRequest) (hops : Nat) (s : σ) :
    ∃ response rest, (followFrom fetch current hops s).1 = (current, response) :: rest := by
  rw [followFrom]
  split
  · exact ⟨_, _, rfl⟩
  · split
    · exact ⟨_, _, rfl⟩
    · split
      · exact ⟨_, _, rfl⟩
      · exact ⟨_, _, rfl⟩

theorem length_followFrom (current : NetRequest) (hops : Nat) (s : σ) :
    (followFrom fetch current hops s).1.length ≤ current.limit - hops + 1 := by
  induction hn : current.limit - hops generalizing current hops s with
  | zero =>
    rw [followFrom, if_pos (by omega)]
    exact Nat.le_refl 1
  | succ n ih =>
    rw [followFrom, if_neg (by omega)]
    split
    · rw [List.length_singleton]
      omega
    · split
      · rename_i response s' _ next hnext
        have hlimit := limit_redirectTarget hnext
        have hrest := ih next (hops + 1) s' (by omega)
        rw [List.length_cons]
        omega
      · rw [List.length_singleton]
        omega

theorem safe_single {original current : NetRequest} (hsafe : SafeRequest original current)
    (response : Option NetResponse) :
    (∀ e ∈ [(current, response)], SafeRequest original e.1) ↔
      ∀ e ∈ [(current, response)].dropLast, ∀ response ∈ e.2, HopOk e.1 response := by
  constructor
  · intro _ e he
    cases he
  · intro _ e he
    rw [List.mem_singleton.mp he]
    exact hsafe

/-- The requests of a chain are safe exactly when its hops are in order. -/
theorem safe_followFrom_iff (hfetch : Stamped fetch) {original : NetRequest} (current : NetRequest)
    (hops : Nat) (s : σ) (hdescends : Descends original current)
    (hsafe : SafeRequest original current) :
    (∀ e ∈ (followFrom fetch current hops s).1, SafeRequest original e.1) ↔
      ∀ e ∈ (followFrom fetch current hops s).1.dropLast, ∀ response ∈ e.2, HopOk e.1 response := by
  induction hn : current.limit - hops generalizing current hops s with
  | zero =>
    rw [followFrom, if_pos (by omega)]
    exact safe_single hsafe _
  | succ n ih =>
    rw [followFrom, if_neg (by omega)]
    split
    · exact safe_single hsafe _
    · rename_i response s' hresponse
      split
      · rename_i next hnext
        have hhop := hop_of_redirectTarget (hfetch _ _ _ _ hresponse) hnext
        have hlimit := limit_redirectTarget hnext
        obtain ⟨answer, rest, hrest⟩ := @followFrom_cons σ ε fetch next (hops + 1) s'
        have hstep := safeRequest_hop_iff hdescends hsafe hhop
        have hwhole : SafeRequest original next →
            ((∀ e ∈ (followFrom fetch next (hops + 1) s').1, SafeRequest original e.1) ↔
              ∀ e ∈ (followFrom fetch next (hops + 1) s').1.dropLast,
                ∀ response ∈ e.2, HopOk e.1 response) := fun hnextSafe =>
          ih next (hops + 1) s' (hdescends.hop hhop) hnextSafe (by omega)
        have hne : (followFrom fetch next (hops + 1) s').1 ≠ [] := by
          rw [hrest]
          exact List.cons_ne_nil _ _
        dsimp only
        rw [List.dropLast_cons_of_ne_nil hne]
        constructor
        · intro hall e he
          have hnextSafe : SafeRequest original next := by
            apply hall (next, answer)
            rw [hrest]
            exact List.mem_cons_of_mem _ List.mem_cons_self
          rw [List.mem_cons] at he
          obtain rfl | he := he
          · intro response' hresponse'
            cases hresponse'
            exact hstep.mp hnextSafe
          · exact (hwhole hnextSafe).mp (fun e he => hall e (List.mem_cons_of_mem _ he)) e he
        · intro hall e he
          have hnextSafe := hstep.mpr (hall _ List.mem_cons_self response rfl)
          rw [List.mem_cons] at he
          obtain rfl | he := he
          · exact hsafe
          · exact (hwhole hnextSafe).mpr (fun e he => hall e (List.mem_cons_of_mem _ he)) e he
      · exact safe_single hsafe _

/-- A chain keeps credentials to the server of the first request, and leaves no header about a body on a
request that has become a `GET`, exactly when its hops are in order; and it is no longer than the
limit. -/
theorem followRedirects_safe_iff (hfetch : Stamped fetch) (request : NetRequest) (s : σ) :
    ((∀ e ∈ (followRedirects fetch request s).1, SafeRequest request e.1) ∧
        (followRedirects fetch request s).1.length ≤ request.limit + 1) ↔
      ∀ e ∈ (followRedirects fetch request s).1.dropLast, ∀ response ∈ e.2, HopOk e.1 response := by
  have hlength := @length_followFrom σ ε fetch request 0 s
  have hsafe := safe_followFrom_iff hfetch request 0 s (Descends.refl request)
    (SafeRequest.refl request)
  rw [followRedirects]
  constructor
  · intro ⟨hall, _⟩
    exact hsafe.mp hall
  · intro hall
    exact ⟨hsafe.mpr hall, hlength⟩

end Safety

/-- A server that always sends to another page. -/
def seeOther (_ : Unit) (request : NetRequest) : Except Unit NetResponse × Unit :=
  (.ok ⟨303, [("location".toList, "/done".toList)], [], request.url⟩, ())

theorem stamped_seeOther : Stamped seeOther := by
  intro s request response s' h
  cases h
  exact Or.inr rfl

theorem followRedirects_seeOther {request next : NetRequest} (hlimit : request.limit = 1)
    (hnext : redirectTarget request
      ⟨303, [("location".toList, "/done".toList)], [], request.url⟩ 0 = some next) :
    ∃ answer, (followRedirects seeOther request ()).1 =
      [(request, some ⟨303, [("location".toList, "/done".toList)], [], request.url⟩),
        (next, answer)] := by
  have hnextLimit := (limit_redirectTarget hnext).1
  rw [followRedirects, followFrom, if_neg (by omega)]
  dsimp only [seeOther]
  split
  · rename_i next' h
    have hsame : next' = next := Option.some_inj.mp (h.symm.trans hnext)
    rw [hsame, followFrom, if_pos (by omega)]
    exact ⟨_, rfl⟩
  · rename_i h
    cases h.symm.trans hnext

/-- A page that is read with a token. -/
def signedGet : NetRequest where
  method := "GET".toList
  url := "http://a/form".toList
  headers := [("authorization".toList, "Bearer secret".toList)]
  body := []
  timeoutMs := none
  redirectLimit := some 1

theorem followRedirects_safe_signedGet :
    (∀ e ∈ (followRedirects seeOther signedGet ()).1, SafeRequest signedGet e.1) ∧
      (followRedirects seeOther signedGet ()).1.length ≤ 2 := by
  apply (followRedirects_safe_iff stamped_seeOther signedGet ()).mpr
  obtain ⟨answer, htrace⟩ := @followRedirects_seeOther signedGet
    { signedGet with url := "http://a/done".toList } rfl (by decide +kernel)
  rw [htrace]
  intro e he response hresponse
  rw [List.mem_singleton.mp he] at hresponse ⊢
  cases hresponse
  refine ⟨fun _ location hlocation => ?_, fun _ hmethod => absurd rfl hmethod⟩
  have hlocation' : location = "/done".toList := by
    apply Option.some_inj.mp
    rw [← hlocation]
    decide +kernel
  have hserver : SameServer signedGet.url (resolveReference signedGet.url location) := by
    rw [hlocation']
    exact ⟨by decide +kernel, by decide +kernel, by decide +kernel⟩
  exact ⟨fun h => h.not_sameServer.1 hserver, fun h => h.not_sameServer.2 hserver⟩

/-- **Down a chain a request only loses headers**: each is one hop after the one before, which takes the credentials with it
when the origin changes, and no later request has a header again that an earlier one had lost. -/
theorem followRedirects_descends {σ ε : Type} {fetch : σ → NetRequest → Except ε NetResponse × σ} (hfetch : Stamped fetch)
    (request : NetRequest) (s : σ) :
    ((followRedirects fetch request s).1.IsChain fun a b => ∃ response ∈ a.2, Hop a.1 response b.1 ∧
      (sameOrigin a.1.url b.1.url = false → ¬ Carries crossOriginHeaders b.1)) ∧
    (followRedirects fetch request s).1.Pairwise fun a b => Descends a.1 b.1 := by
  have hchain : ∀ current hops s, (followFrom fetch current hops s).1.IsChain fun a b => ∃ response ∈ a.2,
      Hop a.1 response b.1 := by
    intro current hops s
    induction hn : current.limit - hops generalizing current hops s with
    | zero =>
      rw [followFrom, if_pos (by omega)]
      exact .singleton _
    | succ n ih =>
      rw [followFrom, if_neg (by omega)]
      split
      · exact .singleton _
      · rename_i response s' hresponse
        split
        · rename_i next hnext
          have hlimit := limit_redirectTarget hnext
          have hrest := ih next (hops + 1) s' (by omega)
          obtain ⟨answer, rest, heq⟩ := @followFrom_cons σ ε fetch next (hops + 1) s'
          dsimp only
          rw [heq] at hrest ⊢
          exact List.isChain_cons_cons.mpr ⟨⟨response, rfl, hop_of_redirectTarget (hfetch _ _ _ _ hresponse) hnext⟩, hrest⟩
        · exact .singleton _
  have htrans : IsTrans (NetRequest × Option NetResponse) fun a b => Descends a.1 b.1 := by
    refine ⟨fun a b c hab hbc => ⟨fun h hh => hab.headers h (hbc.headers h hh), ?_⟩⟩
    exact hbc.method.elim (fun heq => heq ▸ hab.method) .inr
  constructor
  · refine (hchain request 0 s).imp ?_
    rintro a b ⟨response, hmem, hhop⟩
    refine ⟨response, hmem, hhop, fun horigin hcarries => ?_⟩
    rw [(hhop.carries_credential_iff.mp hcarries).2] at horigin
    cases horigin
  · refine List.isChain_iff_pairwise.mp ((hchain request 0 s).imp ?_)
    rintro a b ⟨_, _, hhop⟩
    exact (Descends.refl a.1).hop hhop

theorem followRedirects_descends_signedGet :
    (followRedirects seeOther signedGet ()).1.Pairwise fun a b => Descends a.1 b.1 :=
  (followRedirects_descends stamped_seeOther signedGet ()).2

/-- A form without content. -/
def emptyForm : NetRequest where
  method := "POST".toList
  url := "http://a/form".toList
  headers := [("content-type".toList, "text/plain".toList)]
  body := []
  timeoutMs := none
  redirectLimit := some 1

/-- The `GET` after an empty form still has the type of its content. -/
theorem followRedirects_keeps_contentType :
    ¬ ∀ (fetch : Unit → NetRequest → Except Unit NetResponse × Unit), Stamped fetch →
      ∀ request, (∀ e ∈ (followRedirects fetch request ()).1, SafeRequest request e.1) ∧
        (followRedirects fetch request ()).1.length ≤ request.limit + 1 := by
  intro h
  obtain ⟨hsafe, _⟩ := h seeOther stamped_seeOther emptyForm
  obtain ⟨answer, htrace⟩ := @followRedirects_seeOther emptyForm
    { emptyForm with method := "GET".toList, url := "http://a/done".toList } rfl (by decide +kernel)
  rw [htrace] at hsafe
  have hnext := hsafe _ (List.mem_cons_of_mem _ List.mem_cons_self)
  have hchanged : "GET".toList ≠ "POST".toList := by decide
  exact hnext.body hchanged
    ⟨("content-type".toList, "text/plain".toList), List.mem_cons_self, by decide +kernel⟩

end Noeta.Ext
