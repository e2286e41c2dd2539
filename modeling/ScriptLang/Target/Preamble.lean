/-!
# The preamble of emitted modules

The functions that every emitted module carries along: the helpers that emitted
code calls on its own account, and one function for each builtin of the language.
The text is copied into a module as it stands.
-/

namespace ScriptLang.Target

/-- The lines of the preamble. -/
def preambleLines : List String := [
  "// Verbena runtime support. Generated code follows.",
  "",
  "function type(v) \x7b",
  "    if (v === null || v === undefined) return \"null\";",
  "    if (typeof v === \"boolean\") return \"bool\";",
  "    if (typeof v === \"number\") return \"number\";",
  "    if (typeof v === \"string\") return \"string\";",
  "    if (Array.isArray(v)) return \"list\";",
  "    if (v instanceof Map) return \"map\";",
  "    if (typeof v === \"function\") return \"fn\";",
  "    return typeof v;",
  "\x7d",
  "",
  "function _str(v, nested = false) \x7b",
  "    if (v === null || v === undefined) return \"null\";",
  "    if (typeof v === \"string\") return nested ? JSON.stringify(v) : v;",
  "    if (Array.isArray(v)) return \"[\" + v.map((x) => _str(x, true)).join(\", \") + \"]\";",
  "    if (v instanceof Map) \x7b",
  "        const entries = [...v].map(([k, x]) => _str(k, true) + \": \" + _str(x, true));",
  "        return \"\x7b\" + entries.join(\", \") + \"\x7d\";",
  "    \x7d",
  "    if (typeof v === \"function\") return \"<fn \" + v.name + \">\";",
  "    return String(v);",
  "\x7d",
  "",
  "function str(v) \x7b",
  "    return _str(v);",
  "\x7d",
  "",
  "function _num(v) \x7b",
  "    if (v === null || v === undefined) return 0;",
  "    if (typeof v === \"boolean\") return v ? 1 : 0;",
  "    if (typeof v === \"number\") return v;",
  "    if (typeof v === \"string\") return Number(v);",
  "    return NaN;",
  "\x7d",
  "",
  "function num(v) \x7b",
  "    return _num(v);",
  "\x7d",
  "",
  "function print(...args) \x7b",
  "    console.log(args.map((a) => _str(a)).join(\" \"));",
  "    return null;",
  "\x7d",
  "",
  "function eprint(...args) \x7b",
  "    console.error(args.map((a) => _str(a)).join(\" \"));",
  "    return null;",
  "\x7d",
  "",
  "function len(v) \x7b",
  "    if (v instanceof Map) return v.size;",
  "    if (typeof v === \"string\") return Array.from(v).length;",
  "    if (Array.isArray(v)) return v.length;",
  "    throw new TypeError(\"cannot take len of \" + type(v));",
  "\x7d",
  "",
  "function _eq(a, b) \x7b",
  "    if (a === b || (a == null && b == null)) return true;",
  "    if (Array.isArray(a) && Array.isArray(b)) \x7b",
  "        return a.length === b.length && a.every((x, i) => _eq(x, b[i]));",
  "    \x7d",
  "    if (a instanceof Map && b instanceof Map) \x7b",
  "        if (a.size !== b.size) return false;",
  "        for (const [k, x] of a) \x7b",
  "            if (!b.has(k) || !_eq(x, b.get(k))) return false;",
  "        \x7d",
  "        return true;",
  "    \x7d",
  "    return false;",
  "\x7d",
  "",
  "function _index(k, n) \x7b",
  "    return Number.isInteger(k) && k >= 0 && k < n;",
  "\x7d",
  "",
  "function _get(a, k) \x7b",
  "    if (a instanceof Map) return a.has(k) ? a.get(k) : null;",
  "    if (typeof a === \"string\") \x7b",
  "        const cs = Array.from(a);",
  "        return _index(k, cs.length) ? cs[k] : null;",
  "    \x7d",
  "    if (Array.isArray(a)) return _index(k, a.length) ? a[k] : null;",
  "    throw new TypeError(\"cannot index \" + type(a));",
  "\x7d",
  "",
  "function _set(a, k, v) \x7b",
  "    if (a instanceof Map) \x7b",
  "        a.set(k, v);",
  "        return v;",
  "    \x7d",
  "    if (Array.isArray(a)) \x7b",
  "        if (!_index(k, a.length + 1)) " ++
    "throw new TypeError(\"cannot assign past the end of list\");",
  "        a[k] = v;",
  "        return v;",
  "    \x7d",
  "    throw new TypeError(\"cannot assign into \" + type(a));",
  "\x7d",
  "",
  "function _update(a, k, f) \x7b",
  "    return _set(a, k, f(_get(a, k)));",
  "\x7d",
  "",
  "function _slice(a, i, j) \x7b",
  "    if (typeof a === \"string\") \x7b",
  "        const cs = Array.from(a);",
  "        return cs.slice(i ?? 0, j ?? cs.length).join(\"\");",
  "    \x7d",
  "    if (Array.isArray(a)) return a.slice(i ?? 0, j ?? a.length);",
  "    throw new TypeError(\"cannot slice \" + type(a));",
  "\x7d",
  "",
  "function _iter(v) \x7b",
  "    if (v instanceof Map) return [...v.keys()];",
  "    if (typeof v === \"string\" || Array.isArray(v)) return Array.from(v);",
  "    throw new TypeError(\"cannot iterate \" + type(v));",
  "\x7d",
  "",
  "function _entries(v) \x7b",
  "    if (v instanceof Map) return [...v.entries()];",
  "    return [..._iter(v).entries()];",
  "\x7d",
  "",
  "function range(...args) \x7b",
  "    args = args.map(_num);",
  "    let start = 0, stop, step = 1;",
  "    if (args.length === 1) [stop] = args;",
  "    else if (args.length === 2) [start, stop] = args;",
  "    else if (args.length === 3) [start, stop, step] = args;",
  "    else throw new TypeError(\"cannot call range with \" + args.length + \" arguments\");",
  "    if (step === 0) throw new RangeError(\"range step cannot be zero\");",
  "    const out = [];",
  "    for (let i = start; step > 0 ? i < stop : i > stop; i += step) out.push(i);",
  "    return out;",
  "\x7d",
  "",
  "function _assert(c, at) \x7b",
  "    if (!c) throw new Error(at + \": assertion failed\");",
  "\x7d",
  "",
  "function _caught(e) \x7b",
  "    return e instanceof Error ? e.message : e;",
  "\x7d",
  "",
  "function abs(x) \x7b return Math.abs(_num(x)); \x7d",
  "function floor(x) \x7b return Math.floor(_num(x)); \x7d",
  "function ceil(x) \x7b return Math.ceil(_num(x)); \x7d",
  "function round(x) \x7b return Math.round(_num(x)); \x7d",
  "function trunc(x) \x7b return Math.trunc(_num(x)); \x7d",
  "function sqrt(x) \x7b return Math.sqrt(_num(x)); \x7d",
  "function cbrt(x) \x7b return Math.cbrt(_num(x)); \x7d",
  "function exp(x) \x7b return Math.exp(_num(x)); \x7d",
  "function log(x) \x7b return Math.log(_num(x)); \x7d",
  "function log2(x) \x7b return Math.log2(_num(x)); \x7d",
  "function log10(x) \x7b return Math.log10(_num(x)); \x7d",
  "function sin(x) \x7b return Math.sin(_num(x)); \x7d",
  "function cos(x) \x7b return Math.cos(_num(x)); \x7d",
  "function tan(x) \x7b return Math.tan(_num(x)); \x7d",
  "function acos(x) \x7b return Math.acos(_num(x)); \x7d",
  "function acosh(x) \x7b return Math.acosh(_num(x)); \x7d",
  "function asin(x) \x7b return Math.asin(_num(x)); \x7d",
  "function asinh(x) \x7b return Math.asinh(_num(x)); \x7d",
  "function atan(x) \x7b return Math.atan(_num(x)); \x7d",
  "function atanh(x) \x7b return Math.atanh(_num(x)); \x7d",
  "function sinh(x) \x7b return Math.sinh(_num(x)); \x7d",
  "function cosh(x) \x7b return Math.cosh(_num(x)); \x7d",
  "function tanh(x) \x7b return Math.tanh(_num(x)); \x7d",
  "function exp2(x) \x7b return 2 ** _num(x); \x7d",
  "function expm1(x) \x7b return Math.expm1(_num(x)); \x7d",
  "function log1p(x) \x7b return Math.log1p(_num(x)); \x7d",
  "function atan2(y, x) \x7b return Math.atan2(_num(y), _num(x)); \x7d",
  "function hypot(x, y) \x7b return Math.hypot(_num(x), _num(y)); \x7d",
  "function min(a, b) \x7b return Math.min(_num(a), _num(b)); \x7d",
  "function max(a, b) \x7b return Math.max(_num(a), _num(b)); \x7d",
  "",
  "function ord(s) \x7b",
  "    return _str(s).codePointAt(0) ?? 0;",
  "\x7d",
  "",
  "function chr(n) \x7b",
  "    const c = _num(n);",
  "    if (!Number.isInteger(c) || c < 0 || c > 0x10ffff || (c >= 0xd800 && c <= 0xdfff)) \x7b",
  "        throw new RangeError(\"cannot make a character from \" + _str(c));",
  "    \x7d",
  "    return String.fromCodePoint(c);",
  "\x7d",
  "",
  "function upper(s) \x7b",
  "    return _str(s).toUpperCase();",
  "\x7d",
  "",
  "function lower(s) \x7b",
  "    return _str(s).toLowerCase();",
  "\x7d",
  "",
  "function _radix(b) \x7b",
  "    const n = _num(b);",
  "    if (!Number.isInteger(n) || n < 2 || n > 36) " ++
    "throw new RangeError(\"cannot use base \" + _str(n));",
  "    return n;",
  "\x7d",
  "",
  "function strbase(n, b) \x7b",
  "    const base = _radix(b);",
  "    const v = _num(n);",
  "    return Number.isFinite(v) ? Math.trunc(v).toString(base) : _str(v);",
  "\x7d",
  "",
  "function numbase(s, b) \x7b",
  "    const base = _radix(b);",
  "    let text = _str(s).trim();",
  "    let sign = 1;",
  "    if (text.startsWith(\"-\")) \x7b",
  "        sign = -1;",
  "        text = text.slice(1);",
  "    \x7d else if (text.startsWith(\"+\")) \x7b",
  "        text = text.slice(1);",
  "    \x7d",
  "    const bad = () => new TypeError(\"cannot parse integer in base \" + base);",
  "    if (text === \"\") throw bad();",
  "    let n = 0;",
  "    for (const c of text) \x7b",
  "        const d = parseInt(c, 36);",
  "        if (!(d < base)) throw bad();",
  "        n = n * base + d;",
  "    \x7d",
  "    return sign * n;",
  "\x7d"]

/-- The text of the preamble. -/
def preamble : String := String.join (preambleLines.map (· ++ "\n"))

end ScriptLang.Target
