set_option autoImplicit false

/-! # The texts of the standard library

The units of the library, line by line: the runtime, which is JavaScript that compiled units call
(objects and constants, methods and blocks, returns out of blocks, the module table), and the Ruby
units on top of it.
-/

namespace RubyJs.Library

/-- The lines of the runtime. -/
def runtimeLines : List String :=
  [
    "(function(global) \x7b",
    "  \"use strict\";",
    "",
    "  if (global.Opal) \x7b",
    "    return;",
    "  \x7d",
    "",
    "  var Opal = global.Opal = \x7b\x7d;",
    "",
    "  // Scopes: one object per module, chained through prototypes so lexical",
    "  // lookup falls back to the enclosing scope and finally the top level.",
    "  function Scope(owner) \x7b",
    "    this.$$owner = owner;",
    "  \x7d",
    "",
    "  Scope.prototype.get = function(name) \x7b",
    "    var value = this[\"$$c_\" + name];",
    "    if (value === undefined) \x7b",
    "      throw new Error(\"uninitialized constant \" + name);",
    "    \x7d",
    "    return value;",
    "  \x7d;",
    "",
    "  Scope.prototype.set = function(name, value) \x7b",
    "    this[\"$$c_\" + name] = value;",
    "    if (value && value.$$is_module && value.$$name == null) \x7b",
    "      value.$$name = name;",
    "    \x7d",
    "    return value;",
    "  \x7d;",
    "",
    "  function makeModule(name, parentScope, superclass, isClass) \x7b",
    "    var module;",
    "    if (isClass) \x7b",
    "      module = function() \x7b\x7d;",
    "      var base = superclass ? superclass.$$proto : BasicObjectProto;",
    "      module.prototype = Object.create(base);",
    "      module.prototype.$$class = module;",
    "    \x7d else \x7b",
    "      module = function() \x7b\x7d;",
    "      module.prototype = \x7b\x7d;",
    "    \x7d",
    "    module.$$is_module = true;",
    "    module.$$is_class = isClass;",
    "    module.$$name = name;",
    "    module.$$proto = module.prototype;",
    "    module.$$super = superclass || null;",
    "    module.$$scope = Object.create(parentScope);",
    "    Scope.call(module.$$scope, module);",
    "    module.$$smethods = \x7b\x7d;",
    "    return module;",
    "  \x7d",
    "",
    "  var BasicObjectProto = \x7b\x7d;",
    "  var topScope = new Scope(null);",
    "",
    "  Opal.$$scope = topScope;",
    "  Opal.get = function(name) \x7b",
    "    return topScope.get(name);",
    "  \x7d;",
    "",
    "  var ObjectClass = makeModule(\"Object\", topScope, null, true);",
    "  var ModuleClass = makeModule(\"Module\", topScope, ObjectClass, true);",
    "  var ClassClass = makeModule(\"Class\", topScope, ModuleClass, true);",
    "  ObjectClass.$$scope = topScope;",
    "  topScope.$$owner = ObjectClass;",
    "  topScope.set(\"Object\", ObjectClass);",
    "  topScope.set(\"BasicObject\", ObjectClass);",
    "  topScope.set(\"Module\", ModuleClass);",
    "  topScope.set(\"Class\", ClassClass);",
    "  Opal.Object = ObjectClass;",
    "",
    "  var NilClass = makeModule(\"NilClass\", topScope, ObjectClass, true);",
    "  topScope.set(\"NilClass\", NilClass);",
    "  var nil = Opal.nil = new NilClass();",
    "  nil.$$is_nil = true;",
    "",
    "  var top = Opal.top = new ObjectClass();",
    "  top.$to_s = top.$inspect = function() \x7b return \"main\"; \x7d;",
    "",
    "  Opal.gvars = \x7b\x7d;",
    "  Opal.modules = \x7b\x7d;",
    "  Opal.loaded = \x7b\x7d;",
    "",
    "  // Truthiness: only nil and false are falsy.",
    "  Opal.truthy = function(value) \x7b",
    "    return value !== nil && value != null && value !== false;",
    "  \x7d;",
    "",
    "  Opal.klass = function(base, superclass, name, constructor) \x7b",
    "    if (base == null || !base.$$is_module) \x7b",
    "      base = ObjectClass;",
    "    \x7d",
    "    var scope = base.$$scope;",
    "    var existing = scope[\"$$c_\" + name];",
    "    if (existing !== undefined && existing.$$is_class) \x7b",
    "      return existing;",
    "    \x7d",
    "    var klass = makeModule(name, scope, superclass || ObjectClass, true);",
    "    if (constructor) \x7b",
    "      constructor.prototype = klass.prototype;",
    "    \x7d",
    "    scope.set(name, klass);",
    "    return klass;",
    "  \x7d;",
    "",
    "  Opal.module = function(base, name) \x7b",
    "    if (base == null || !base.$$is_module) \x7b",
    "      base = ObjectClass;",
    "    \x7d",
    "    var scope = base.$$scope;",
    "    var existing = scope[\"$$c_\" + name];",
    "    if (existing !== undefined && existing.$$is_module) \x7b",
    "      return existing;",
    "    \x7d",
    "    var module = makeModule(name, scope, null, false);",
    "    scope.set(name, module);",
    "    return module;",
    "  \x7d;",
    "",
    "  Opal.cdecl = function(scope, name, value) \x7b",
    "    return scope.set(name, value);",
    "  \x7d;",
    "",
    "  Opal.const_get_qualified = function(base, name) \x7b",
    "    if (base == null || base.$$scope == null) \x7b",
    "      throw new Error(String(base) + \" is not a class/module\");",
    "    \x7d",
    "    var value = base.$$scope[\"$$c_\" + name];",
    "    if (value === undefined) \x7b",
    "      throw new Error(\"uninitialized constant \" + base.$$name + \"::\" + name);",
    "    \x7d",
    "    return value;",
    "  \x7d;",
    "",
    "  Opal.get_singleton_class = function(object) \x7b",
    "    if (object.$$meta) \x7b",
    "      return object.$$meta;",
    "    \x7d",
    "    var meta = makeModule(null, object.$$scope || topScope, null, false);",
    "    meta.$$proto = object;",
    "    meta.$$singleton_of = object;",
    "    object.$$meta = meta;",
    "    return meta;",
    "  \x7d;",
    "",
    "  // Methods defined at the top level land on Object; inside a class or",
    "  // module body they land on its prototype; anywhere else on the object.",
    "  Opal.defn = function(target, jsid, body) \x7b",
    "    if (target === top) \x7b",
    "      target = ObjectClass;",
    "    \x7d",
    "    if (target.$$is_module) \x7b",
    "      target.$$proto[jsid] = body;",
    "    \x7d else \x7b",
    "      target[jsid] = body;",
    "    \x7d",
    "    return jsid.substr(1);",
    "  \x7d;",
    "",
    "  Opal.defs = function(target, jsid, body) \x7b",
    "    target[jsid] = body;",
    "    return jsid.substr(1);",
    "  \x7d;",
    "",
    "  Opal.alias = function(target, newId, oldId) \x7b",
    "    var holder = target === top ? ObjectClass.$$proto : (target.$$is_module ? target.$$proto : target);",
    "    var body = holder[oldId];",
    "    if (typeof body !== \"function\") \x7b",
    "      throw new Error(\"undefined method `\" + oldId.substr(1) + \"' for alias\");",
    "    \x7d",
    "    holder[newId] = body;",
    "    return nil;",
    "  \x7d;",
    "",
    "  Opal.udef = function(target, jsid) \x7b",
    "    var holder = target === top ? ObjectClass.$$proto : (target.$$is_module ? target.$$proto : target);",
    "    holder[jsid] = undefined;",
    "    return nil;",
    "  \x7d;",
    "",
    "  function toProc(block) \x7b",
    "    if (typeof block === \"string\") \x7b",
    "      var name = \"$\" + block;",
    "      return function(receiver) \x7b",
    "        var args = Array.prototype.slice.call(arguments, 1);",
    "        return receiver[name].apply(receiver, args);",
    "      \x7d;",
    "    \x7d",
    "    if (block && typeof block.$to_proc === \"function\" && typeof block !== \"function\") \x7b",
    "      return block.$to_proc();",
    "    \x7d",
    "    return block;",
    "  \x7d",
    "",
    "  Opal.send = function(receiver, jsid, args, block) \x7b",
    "    var body = receiver[jsid];",
    "    if (typeof body !== \"function\") \x7b",
    "      throw new Error(\"undefined method `\" + jsid.substr(1) + \"' for \" + String(receiver));",
    "    \x7d",
    "    body.$$p = block === nil ? null : toProc(block);",
    "    try \x7b",
    "      return body.apply(receiver, args);",
    "    \x7d catch (error) \x7b",
    "      if (error === Opal.breaker) \x7b",
    "        return error.$v;",
    "      \x7d",
    "      throw error;",
    "    \x7d",
    "  \x7d;",
    "",
    "  Opal.yieldX = function(block, args) \x7b",
    "    if (block == null || block === nil) \x7b",
    "      throw new Error(\"no block given (yield)\");",
    "    \x7d",
    "    return block.apply(null, args);",
    "  \x7d;",
    "",
    "  Opal.breaker = new Error(\"unexpected break\");",
    "  Opal.returner = new Error(\"unexpected return\");",
    "",
    "  Opal.brk = function(value) \x7b",
    "    Opal.breaker.$v = value;",
    "    throw Opal.breaker;",
    "  \x7d;",
    "",
    "  Opal.ret = function(value) \x7b",
    "    Opal.returner.$v = value;",
    "    throw Opal.returner;",
    "  \x7d;",
    "",
    "  Opal.rescue = function(error, classes) \x7b",
    "    if (error === Opal.breaker || error === Opal.returner) \x7b",
    "      return false;",
    "    \x7d",
    "    for (var i = 0; i < classes.length; i++) \x7b",
    "      var candidate = classes[i];",
    "      if (candidate && candidate.$$is_array) \x7b",
    "        if (Opal.rescue(error, candidate)) \x7b",
    "          return true;",
    "        \x7d",
    "      \x7d else if (candidate && candidate.$$is_module && error instanceof candidate) \x7b",
    "        return true;",
    "      \x7d else if (candidate === StandardError) \x7b",
    "        return true;",
    "      \x7d",
    "    \x7d",
    "    return false;",
    "  \x7d;",
    "",
    "  Opal.zuper = function(self, jsid, current, args, block) \x7b",
    "    var proto = Object.getPrototypeOf(self);",
    "    while (proto && proto[jsid] !== current) \x7b",
    "      proto = Object.getPrototypeOf(proto);",
    "    \x7d",
    "    var parent = proto ? Object.getPrototypeOf(proto) : null;",
    "    var body = parent ? parent[jsid] : null;",
    "    if (typeof body !== \"function\") \x7b",
    "      throw new Error(\"super: no superclass method `\" + jsid.substr(1) + \"'\");",
    "    \x7d",
    "    body.$$p = block === nil ? null : toProc(block);",
    "    return body.apply(self, args);",
    "  \x7d;",
    "",
    "  Opal.to_a = function(value) \x7b",
    "    if (value == null || value === nil) \x7b",
    "      return [];",
    "    \x7d",
    "    if (Array.isArray(value)) \x7b",
    "      return value.slice();",
    "    \x7d",
    "    if (typeof value.$to_a === \"function\") \x7b",
    "      return value.$to_a();",
    "    \x7d",
    "    return [value];",
    "  \x7d;",
    "",
    "  Opal.splat_eqq = function(list, value) \x7b",
    "    var items = Opal.to_a(list);",
    "    for (var i = 0; i < items.length; i++) \x7b",
    "      if (Opal.truthy(items[i][\"$===\"](value))) \x7b",
    "        return true;",
    "      \x7d",
    "    \x7d",
    "    return false;",
    "  \x7d;",
    "",
    "  Opal.hash = function(keys, values) \x7b",
    "    var hash = new HashClass();",
    "    hash.$$keys = [];",
    "    hash.$$map = \x7b\x7d;",
    "    for (var i = 0; i < keys.length; i++) \x7b",
    "      var key = String(keys[i]);",
    "      if (!(key in hash.$$map)) \x7b",
    "        hash.$$keys.push(keys[i]);",
    "      \x7d",
    "      hash.$$map[key] = values[i];",
    "    \x7d",
    "    return hash;",
    "  \x7d;",
    "",
    "  Opal.range = function(first, last, exclusive) \x7b",
    "    var range = new RangeClass();",
    "    range.begin = first;",
    "    range.end = last;",
    "    range.exclusive = exclusive;",
    "    return range;",
    "  \x7d;",
    "",
    "  // Module table: each body runs at most once.",
    "  Opal.require = function(name) \x7b",
    "    if (Opal.loaded[name]) \x7b",
    "      return false;",
    "    \x7d",
    "    var body = Opal.modules[name];",
    "    if (body == null) \x7b",
    "      throw new Error(\"cannot load such file -- \" + name);",
    "    \x7d",
    "    Opal.loaded[name] = true;",
    "    body(Opal);",
    "    return true;",
    "  \x7d;",
    "",
    "  Opal.require_tree = function(dir) \x7b",
    "    var prefix = dir + \"/\";",
    "    for (var name in Opal.modules) \x7b",
    "      if (name.indexOf(prefix) === 0) \x7b",
    "        Opal.require(name);",
    "      \x7d",
    "    \x7d",
    "    return nil;",
    "  \x7d;",
    "",
    "  var HashClass = Opal.klass(ObjectClass, null, \"Hash\");",
    "  var RangeClass = Opal.klass(ObjectClass, null, \"Range\");",
    "  var StandardError = Opal.klass(ObjectClass, null, \"StandardError\");",
    "  Opal.klass(ObjectClass, StandardError, \"ArgumentError\");",
    "  Opal.klass(ObjectClass, StandardError, \"RuntimeError\");",
    "  Opal.klass(ObjectClass, null, \"Boolean\");",
    "  Opal.klass(ObjectClass, null, \"String\");",
    "  Opal.klass(ObjectClass, null, \"Numeric\");",
    "  Opal.klass(ObjectClass, null, \"Array\");",
    "",
    "  Array.prototype.$$is_array = true;",
    "",
    "  var ObjectProto = ObjectClass.$$proto;",
    "",
    "  ObjectProto.$require = function(name) \x7b",
    "    return Opal.require(name);",
    "  \x7d;",
    "",
    "  ObjectProto.$require_tree = function(dir) \x7b",
    "    return Opal.require_tree(dir);",
    "  \x7d;",
    "",
    "  ObjectProto.$autoload = function(constant, name) \x7b",
    "    return nil;",
    "  \x7d;",
    "",
    "  ObjectProto.$new = function() \x7b",
    "    var instance = new this();",
    "    if (typeof instance.$initialize === \"function\") \x7b",
    "      var block = ObjectProto.$new.$$p;",
    "      ObjectProto.$new.$$p = null;",
    "      instance.$initialize.$$p = block;",
    "      instance.$initialize.apply(instance, arguments);",
    "    \x7d",
    "    return instance;",
    "  \x7d;",
    "",
    "  ObjectProto.$puts = function() \x7b",
    "    for (var i = 0; i < arguments.length; i++) \x7b",
    "      console.log(String(arguments[i] === nil ? \"\" : arguments[i].$to_s()));",
    "    \x7d",
    "    return nil;",
    "  \x7d;",
    "",
    "  ObjectProto.$to_s = function() \x7b",
    "    return this.$$is_module ? this.$$name : \"#<\" + this.$$class.$$name + \">\";",
    "  \x7d;",
    "",
    "  ObjectProto.$inspect = function() \x7b",
    "    return this.$to_s();",
    "  \x7d;",
    "",
    "  ObjectProto[\"$==\"] = ObjectProto[\"$equal?\"] = function(other) \x7b",
    "    return this === other;",
    "  \x7d;",
    "",
    "  ObjectProto[\"$!=\"] = function(other) \x7b",
    "    return !Opal.truthy(this[\"$==\"](other));",
    "  \x7d;",
    "",
    "  ObjectProto[\"$===\"] = function(other) \x7b",
    "    if (this.$$is_module) \x7b",
    "      return other instanceof this;",
    "    \x7d",
    "    return this[\"$==\"](other);",
    "  \x7d;",
    "",
    "  ObjectProto[\"$!\"] = function() \x7b",
    "    return !Opal.truthy(this);",
    "  \x7d;",
    "",
    "  ObjectProto[\"$nil?\"] = function() \x7b",
    "    return this === nil;",
    "  \x7d;",
    "",
    "  ObjectProto.$raise = function(error) \x7b",
    "    if (typeof error === \"string\") \x7b",
    "      throw new Error(error);",
    "    \x7d",
    "    throw error;",
    "  \x7d;",
    "",
    "  nil.$to_s = function() \x7b return \"\"; \x7d;",
    "  nil.$inspect = function() \x7b return \"nil\"; \x7d;",
    "  nil.$to_a = function() \x7b return []; \x7d;",
    "",
    "  var StringProto = String.prototype;",
    "  StringProto.$to_s = function() \x7b return String(this); \x7d;",
    "  StringProto.$inspect = function() \x7b return JSON.stringify(String(this)); \x7d;",
    "  StringProto[\"$+\"] = function(other) \x7b return String(this) + other; \x7d;",
    "  StringProto[\"$==\"] = function(other) \x7b return String(this) === other; \x7d;",
    "",
    "  var NumberProto = Number.prototype;",
    "  NumberProto.$to_s = function() \x7b return String(this.valueOf()); \x7d;",
    "  NumberProto.$inspect = NumberProto.$to_s;",
    "  NumberProto[\"$+\"] = function(other) \x7b return this + other; \x7d;",
    "  NumberProto[\"$-\"] = function(other) \x7b return this - other; \x7d;",
    "  NumberProto[\"$*\"] = function(other) \x7b return this * other; \x7d;",
    "  NumberProto[\"$/\"] = function(other) \x7b return this / other; \x7d;",
    "  NumberProto[\"$%\"] = function(other) \x7b return this % other; \x7d;",
    "  NumberProto[\"$<\"] = function(other) \x7b return this < other; \x7d;",
    "  NumberProto[\"$>\"] = function(other) \x7b return this > other; \x7d;",
    "  NumberProto[\"$<=\"] = function(other) \x7b return this <= other; \x7d;",
    "  NumberProto[\"$>=\"] = function(other) \x7b return this >= other; \x7d;",
    "  NumberProto[\"$==\"] = function(other) \x7b return this.valueOf() === other; \x7d;",
    "  NumberProto[\"$-@\"] = function() \x7b return -this; \x7d;",
    "",
    "  var ArrayProto = Array.prototype;",
    "  ArrayProto.$to_a = function() \x7b return this; \x7d;",
    "  ArrayProto.$length = ArrayProto.$size = function() \x7b return this.length; \x7d;",
    "  ArrayProto[\"$[]\"] = function(index) \x7b",
    "    var value = this[index < 0 ? this.length + index : index];",
    "    return value === undefined ? nil : value;",
    "  \x7d;",
    "  ArrayProto[\"$[]=\"] = function(index, value) \x7b this[index] = value; return value; \x7d;",
    "  ArrayProto[\"$<<\"] = function(value) \x7b this.push(value); return this; \x7d;",
    "  ArrayProto.$each = function() \x7b",
    "    var block = ArrayProto.$each.$$p;",
    "    ArrayProto.$each.$$p = null;",
    "    for (var i = 0; i < this.length; i++) \x7b",
    "      block(this[i]);",
    "    \x7d",
    "    return this;",
    "  \x7d;",
    "  ArrayProto.$map = function() \x7b",
    "    var block = ArrayProto.$map.$$p;",
    "    ArrayProto.$map.$$p = null;",
    "    var result = [];",
    "    for (var i = 0; i < this.length; i++) \x7b",
    "      result.push(block(this[i]));",
    "    \x7d",
    "    return result;",
    "  \x7d;",
    "  ArrayProto.$inspect = function() \x7b",
    "    var parts = [];",
    "    for (var i = 0; i < this.length; i++) \x7b",
    "      parts.push(this[i] == null ? \"nil\" : this[i].$inspect());",
    "    \x7d",
    "    return \"[\" + parts.join(\", \") + \"]\";",
    "  \x7d;",
    "  ArrayProto.$to_s = ArrayProto.$inspect;",
    "",
    "  var BooleanProto = Boolean.prototype;",
    "  BooleanProto.$to_s = function() \x7b return String(this.valueOf()); \x7d;",
    "  BooleanProto.$inspect = BooleanProto.$to_s;",
    "  BooleanProto[\"$==\"] = function(other) \x7b return this.valueOf() === other; \x7d;",
    "",
    "  var ErrorProto = Error.prototype;",
    "  ErrorProto.$message = function() \x7b return this.message; \x7d;",
    "\x7d)(typeof globalThis !== \"undefined\" ? globalThis : this);"
  ]

/-- The lines of the unit that stands for the whole library. -/
def opalLines : List String :=
  [
    "require 'corelib/runtime'",
    "require 'corelib/boolean'",
    "",
    "RUBY_ENGINE = 'opal'",
    "RUBY_PLATFORM = 'opal'"
  ]

/-- The lines of the methods of `true` and `false`. -/
def booleanLines : List String :=
  [
    "class Boolean",
    "  def &(other)",
    "    `(self == true) ? (other !== false && other !== nil) : false`",
    "  end",
    "",
    "  def |(other)",
    "    `(self == true) ? true : (other !== false && other !== nil)`",
    "  end",
    "",
    "  def ^(other)",
    "    `(self == true) ? (other === false || other === nil) : (other !== false && other !== nil)`",
    "  end",
    "",
    "  def to_s",
    "    `(self == true) ? 'true' : 'false'`",
    "  end",
    "",
    "  alias inspect to_s",
    "end"
  ]

/-- The lines of the access to the process. -/
def processLines : List String :=
  [
    "module NodeJS",
    "  module Process",
    "    def self.argv",
    "      `process.argv.slice(2)`",
    "    end",
    "",
    "    def self.env(name)",
    "      value = `process.env[#\x7bname\x7d]`",
    "      `#\x7bvalue\x7d == null ? nil : #\x7bvalue\x7d`",
    "    end",
    "",
    "    def self.exit(status = 0)",
    "      `process.exit(#\x7bstatus\x7d)`",
    "    end",
    "  end",
    "end"
  ]

end RubyJs.Library
